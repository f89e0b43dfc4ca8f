import Mathlib.Tactic

/-! A search with a cache that is written too early.

A question comes down to other questions, which must all be answered yes
(`Expansion`). `ask` answers a question by asking these in order, and already after the
first yes among them it writes yes for the question itself, long before the others are
asked. If questions only come down to smaller ones, the entry is not read until the
question is answered; and if the answer is no after all, the whole search is over
(`ask_answersAs`): nobody sees a wrong entry. -/
namespace EarlyCache

variable {π ε κ : Type}

/-- What a question comes down to. -/
inductive Expansion (π : Type) where
  /-- The answer is no. -/
  | refuted
  /-- If the answer to all `questions` is yes, it is `last`. -/
  | reduced (questions : List π) (last : Bool)

/-- A question by the answers to others. -/
def step (expand : π → Except ε (Expansion π)) (answer : π → Except ε Bool) (p : π) :
    Except ε Bool := do
  match ← expand p with
  | .refuted => return false
  | .reduced questions last => return (← questions.allM answer) && last

/-- The answers are those by the answers to others: no cache anywhere. -/
def Answers (expand : π → Except ε (Expansion π)) (answer : π → Except ε Bool) : Prop :=
  ∀ p, answer p = step expand answer p

/-- A cache of answers. -/
structure Cache (π κ : Type) [DecidableEq π] where
  empty : κ
  check : κ → π → Option Bool
  set : κ → π → Bool → κ
  check_empty : ∀ p, check empty p = none
  check_set : ∀ cache p yes q, check (set cache p yes) q = if p = q then some yes else check cache q

section
variable [DecidableEq π] (C : Cache π κ)

/-- The loop over the questions that `p` comes down to. -/
def askAll (ask : π → κ → Except ε (Bool × κ)) (p : π) (last : Bool) :
    List π → κ → Except ε (Bool × κ)
  | [], cache => .ok (last, cache)
  | q :: questions, cache => do
    let (yes, cache) ← ask q cache
    if yes then askAll ask p last questions (C.set cache p true)
    else return (false, C.set cache p false)

/-- The search, with the error `stuck` when it goes deeper than `depth`. -/
def ask (expand : π → Except ε (Expansion π)) (stuck : ε) :
    (depth : Nat) → π → κ → Except ε (Bool × κ)
  | 0, _, _ => .error stuck
  | depth + 1, p, cache =>
    match C.check cache p with
    | some yes => .ok (yes, cache)
    | none => do
      match ← expand p with
      | .refuted => return (false, cache)
      | .reduced questions last => askAll C (ask expand stuck depth) p last questions cache

end

/-! ### Answers without a cache -/

section
variable {expand : π → Except ε (Expansion π)} {rank : π → Nat}

theorem allM_congr {f g : π → Except ε Bool} {questions : List π}
    (h : ∀ q ∈ questions, f q = g q) : questions.allM f = questions.allM g := by
  induction questions with
  | nil => rfl
  | cons q questions ih =>
    rw [List.allM, List.allM, h q List.mem_cons_self,
      ih fun q' hq' => h q' (List.mem_cons_of_mem _ hq')]

/-- Questions come down to smaller ones. -/
def Decreases (expand : π → Except ε (Expansion π)) (rank : π → Nat) : Prop :=
  ∀ p questions last, expand p = .ok (.reduced questions last) → ∀ q ∈ questions, rank q < rank p

/-- The question `q` is one of those that `p` comes down to. -/
def ComesDownTo (expand : π → Except ε (Expansion π)) (p q : π) : Prop :=
  ∃ questions last, expand p = .ok (.reduced questions last) ∧ q ∈ questions

theorem step_congr {f g : π → Except ε Bool} {p : π} (hdec : Decreases expand rank)
    (h : ∀ q, rank q < rank p → f q = g q) : step expand f p = step expand g p := by
  unfold step
  cases hexpand : expand p with
  | error e => rfl
  | ok expansion =>
    cases expansion with
    | refuted => rfl
    | reduced questions last =>
      have hall := allM_congr fun q hq => h q (hdec p questions last hexpand q hq)
      show (questions.allM f >>= _) = (questions.allM g >>= _)
      rw [hall]

/-- There is at most one way to answer. -/
theorem Answers.unique {f g : π → Except ε Bool} (hdec : Decreases expand rank)
    (hf : Answers expand f) (hg : Answers expand g) : f = g := by
  have hall : ∀ n p, rank p < n → f p = g p := by
    intro n
    induction n with
    | zero => exact fun p hp => absurd hp (Nat.not_lt_zero _)
    | succ n ih =>
      intro p hp
      rw [hf p, hg p]
      exact step_congr hdec fun q hq => ih q (lt_of_lt_of_le hq (Nat.le_of_lt_succ hp))
  funext p
  exact hall _ p (Nat.lt_succ_self _)

/-- There is a way to answer: the recursion ends. -/
theorem exists_answers (stuck : ε) (hdec : Decreases expand rank) : ∃ f, Answers expand f := by
  let search : Nat → π → Except ε Bool := fun n =>
    n.rec (fun _ => .error stuck) fun _ answer => step expand answer
  have hstable : ∀ n m p, rank p < n → rank p < m → search n p = search m p := by
    intro n
    induction n with
    | zero => exact fun m p hp => absurd hp (Nat.not_lt_zero _)
    | succ n ih =>
      intro m p hn hm
      cases m with
      | zero => exact absurd hm (Nat.not_lt_zero _)
      | succ m =>
        refine step_congr (f := search n) (g := search m) hdec fun q hq => ?_
        exact ih m q (lt_of_lt_of_le hq (Nat.le_of_lt_succ hn))
          (lt_of_lt_of_le hq (Nat.le_of_lt_succ hm))
  refine ⟨fun p => search (rank p + 1) p, fun p => ?_⟩
  exact step_congr (f := search (rank p)) hdec fun q hq =>
    hstable _ _ q hq (Nat.lt_succ_self _)

end

/-! ### The cache is not seen -/

/-- A computation answers as `a`; after a yes the cache satisfies `I`. After a no nothing
is asked of it. -/
def AnswersAs (I : κ → Prop) (a : Except ε Bool) (m : Except ε (Bool × κ)) : Prop :=
  m.map Prod.fst = a ∧ ∀ cache, m = .ok (true, cache) → I cache

theorem AnswersAs.mono {I I' : κ → Prop} {a : Except ε Bool} {m : Except ε (Bool × κ)}
    (h : AnswersAs I a m) (hI : ∀ cache, a = .ok true → I cache → I' cache) : AnswersAs I' a m := by
  refine ⟨h.1, fun cache hm => hI cache ?_ (h.2 cache hm)⟩
  rw [← h.1, hm]
  rfl

theorem AnswersAs.yes_iff {I : κ → Prop} {a : Except ε Bool} {m : Except ε (Bool × κ)}
    (h : AnswersAs I a m) : (∃ cache, m = .ok (true, cache)) ↔ a = .ok true := by
  rw [← h.1]
  match m with
  | .error e => exact ⟨(fun ⟨_, h⟩ => nomatch h), (fun h => nomatch h)⟩
  | .ok (yes, cache) =>
    constructor
    · intro hm
      obtain ⟨cache', hm⟩ := hm
      cases hm
      rfl
    · intro hm
      cases hm
      exact ⟨cache, rfl⟩

/-- One computation, and after a yes another one. -/
theorem AnswersAs.andThen {I I' : κ → Prop} {a a' : Except ε Bool} {m : Except ε (Bool × κ)}
    (h : AnswersAs I a m) {rest : κ → Except ε (Bool × κ)} (drop : κ → κ)
    (hrest : ∀ cache, a = .ok true → I cache → AnswersAs I' a' (rest cache)) :
    AnswersAs I' (a >>= fun yes => if yes then a' else .ok false)
      (m >>= fun p => if p.1 then rest p.2 else .ok (false, drop p.2)) := by
  obtain ⟨rfl, hI⟩ := h
  match m with
  | .error e => exact ⟨rfl, (fun _ h => nomatch h)⟩
  | .ok (false, cache) => exact ⟨rfl, (fun _ h => nomatch h)⟩
  | .ok (true, cache) => exact hrest cache rfl (hI cache rfl)

section
variable [DecidableEq π] (C : Cache π κ) {expand : π → Except ε (Expansion π)} {rank : π → Nat}
  {answer : π → Except ε Bool}

/-- The cache says yes only, and only for what is answered yes or still `pending`. -/
def Sound (answer : π → Except ε Bool) (pending : π → Prop) (cache : κ) : Prop :=
  ∀ p yes, C.check cache p = some yes → yes = true ∧ (answer p = .ok true ∨ pending p)

theorem sound_empty (pending : π → Prop) : Sound C answer pending C.empty := by
  intro p yes h
  rw [C.check_empty] at h
  cases h

theorem Sound.set {pending : π → Prop} {cache : κ} (h : Sound C answer pending cache) {p : π}
    (hp : pending p) : Sound C answer pending (C.set cache p true) := by
  intro q yes hq
  rw [C.check_set] at hq
  split at hq
  · rename_i heq
    cases hq
    exact ⟨rfl, .inr (heq ▸ hp)⟩
  · exact h q yes hq

/-- The loop over the questions, with the question itself pending. -/
theorem askAll_answersAs {pending : π → Prop} {search : π → κ → Except ε (Bool × κ)} {p : π}
    {last : Bool} (hp : pending p) {questions : List π}
    (hsearch : ∀ q ∈ questions, ∀ cache, Sound C answer pending cache →
      AnswersAs (Sound C answer pending) (answer q) (search q cache))
    {cache : κ} (hcache : Sound C answer pending cache) :
    AnswersAs (Sound C answer pending) (questions.allM answer >>= fun all => .ok (all && last))
      (askAll C search p last questions cache) := by
  induction questions generalizing cache with
  | nil =>
    refine ⟨rfl, fun cache' h => ?_⟩
    cases h
    exact hcache
  | cons q questions ih =>
    have hfirst := hsearch q List.mem_cons_self cache hcache
    have hrest : ∀ cache, answer q = .ok true → Sound C answer pending cache →
        AnswersAs (Sound C answer pending)
          (questions.allM answer >>= fun all => .ok (all && last))
          (askAll C search p last questions (C.set cache p true)) := fun cache _ h =>
      ih (fun q' hq' => hsearch q' (List.mem_cons_of_mem _ hq')) (h.set C hp)
    have hboth := hfirst.andThen (fun cache => C.set cache p false) hrest
    have hall : ((q :: questions).allM answer >>= fun all => Except.ok (all && last)) =
        (answer q >>= fun yes => if yes then
          (questions.allM answer >>= fun all => .ok (all && last)) else .ok false) := by
      rw [List.allM]
      cases answer q with
      | error e => rfl
      | ok yes => cases yes <;> rfl
    rw [hall]
    exact hboth

/-- **The search answers as the recursion without a cache does.** -/
theorem ask_answersAs {stuck : ε} (hdec : Decreases expand rank) (hanswer : Answers expand answer)
    {depth : Nat} {p : π} (hdepth : rank p < depth) {pending : π → Prop}
    (hpending : ∀ q, pending q → rank p < rank q) {cache : κ}
    (hcache : Sound C answer pending cache) :
    AnswersAs (Sound C answer pending) (answer p) (ask C expand stuck depth p cache) := by
  induction depth generalizing p pending cache with
  | zero => exact absurd hdepth (Nat.not_lt_zero _)
  | succ depth ih =>
    rw [ask]
    cases hcheck : C.check cache p with
    | some yes =>
      -- pending questions are bigger than `p`
      obtain ⟨rfl, hyes | hpend⟩ := hcache p yes hcheck
      · refine ⟨hyes.symm, fun cache' h => ?_⟩
        cases h
        exact hcache
      · exact absurd (hpending p hpend) (lt_irrefl _)
    | none =>
      rw [hanswer p, step]
      cases hexpand : expand p with
      | error e => exact ⟨rfl, (fun _ h => nomatch h)⟩
      | ok expansion =>
        cases expansion with
        | refuted => exact ⟨rfl, (fun _ h => nomatch h)⟩
        | reduced questions last =>
          have hloop : AnswersAs (Sound C answer fun q => pending q ∨ q = p)
              (questions.allM answer >>= fun all => .ok (all && last))
              (askAll C (ask C expand stuck depth) p last questions cache) := by
            refine askAll_answersAs C (.inr rfl) (fun q hq cache' hcache' => ?_) fun q yes h =>
              (hcache q yes h).imp_right fun h => h.imp_right .inl
            have hlt := hdec p questions last hexpand q hq
            refine ih (lt_of_lt_of_le hlt (Nat.le_of_lt_succ hdepth)) (fun q' hq' => ?_) hcache'
            rcases hq' with hq' | rfl
            · exact hlt.trans (hpending q' hq')
            · exact hlt
          refine hloop.mono fun cache' hyes hsound q yes h => ?_
          -- the question is no longer pending, but answered
          obtain ⟨htrue, hq | hq | rfl⟩ := hsound q yes h
          · exact ⟨htrue, .inl hq⟩
          · exact ⟨htrue, .inr hq⟩
          · refine ⟨htrue, .inl ?_⟩
            rw [hanswer q, step, hexpand]
            exact hyes

/-! ### The search ends -/

theorem askAll_ne_error {search : π → κ → Except ε (Bool × κ)} {p : π} {last : Bool} {e : ε}
    {questions : List π} (hsearch : ∀ q ∈ questions, ∀ cache, search q cache ≠ .error e)
    (cache : κ) : askAll C search p last questions cache ≠ .error e := by
  induction questions generalizing cache with
  | nil => exact fun h => nomatch h
  | cons q questions ih =>
    intro h
    rw [askAll] at h
    have hfirst := hsearch q List.mem_cons_self cache
    have hrest := ih fun q' hq' => hsearch q' (List.mem_cons_of_mem _ hq')
    match hq : search q cache with
    | .error e' =>
      rw [hq] at h hfirst
      cases h
      exact hfirst rfl
    | .ok (false, cache') =>
      rw [hq] at h
      cases h
    | .ok (true, cache') =>
      rw [hq] at h
      exact hrest _ h

theorem askAll_congr {search search' : π → κ → Except ε (Bool × κ)} {p : π} {last : Bool}
    {questions : List π} (hsearch : ∀ q ∈ questions, ∀ cache, search q cache = search' q cache)
    (cache : κ) :
    askAll C search p last questions cache = askAll C search' p last questions cache := by
  induction questions generalizing cache with
  | nil => rfl
  | cons q questions ih =>
    rw [askAll, askAll, hsearch q List.mem_cons_self cache]
    have hrest := ih fun q' hq' => hsearch q' (List.mem_cons_of_mem _ hq')
    congr 1
    funext answer
    obtain ⟨yes, cache'⟩ := answer
    dsimp only
    rw [hrest]

/-- **The search goes no deeper than the rank**: deeper limits give the same. -/
theorem ask_eq_of_depth {stuck : ε} (hdec : Decreases expand rank) {depth depth' : Nat} {p : π}
    (hdepth : rank p < depth) (hdepth' : rank p < depth') (cache : κ) :
    ask C expand stuck depth p cache = ask C expand stuck depth' p cache := by
  induction depth generalizing depth' p cache with
  | zero => exact absurd hdepth (Nat.not_lt_zero _)
  | succ depth ih =>
    cases depth' with
    | zero => exact absurd hdepth' (Nat.not_lt_zero _)
    | succ depth' =>
      rw [ask, ask]
      cases C.check cache p with
      | some yes => rfl
      | none =>
        cases hp : expand p with
        | error e => rfl
        | ok expansion =>
          cases expansion with
          | refuted => rfl
          | reduced questions last =>
            refine askAll_congr C (fun q hq cache' => ih ?_ ?_ cache') cache
            · exact lt_of_lt_of_le (hdec p questions last hp q hq) (Nat.le_of_lt_succ hdepth)
            · exact lt_of_lt_of_le (hdec p questions last hp q hq) (Nat.le_of_lt_succ hdepth')

/-- **The search does not get stuck**, whatever the cache says, if no question it can come
to is stuck. -/
theorem ask_ne_stuck {stuck : ε} (hdec : Decreases expand rank) {depth : Nat} {p : π}
    (hexpand : ∀ q, Relation.ReflTransGen (ComesDownTo expand) p q → expand q ≠ .error stuck)
    (hdepth : rank p < depth) (cache : κ) : ask C expand stuck depth p cache ≠ .error stuck := by
  induction depth generalizing p cache with
  | zero => exact absurd hdepth (Nat.not_lt_zero _)
  | succ depth ih =>
    rw [ask]
    cases C.check cache p with
    | some yes => exact fun h => nomatch h
    | none =>
      cases hp : expand p with
      | error e =>
        intro h
        cases h
        exact hexpand p .refl hp
      | ok expansion =>
        cases expansion with
        | refuted => exact fun h => nomatch h
        | reduced questions last =>
          refine askAll_ne_error C (fun q hq cache' => ih (fun r hr => ?_) ?_ cache') cache
          · exact hexpand r (.head ⟨questions, last, hp, hq⟩ hr)
          · exact lt_of_lt_of_le (hdec p questions last hp q hq) (Nat.le_of_lt_succ hdepth)

end

end EarlyCache
