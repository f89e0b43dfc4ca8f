import Ppc2cpp.Lib.Numbering
import Ppc2cpp.Lib.Spans
import Ppc2cpp.ProgramLoader.RelBinary

/-! The names of the sections of a REL.

A section is named after its type and numbered by the sections of that type before it. The
loop that counts these has a byte for its variable: it ends for a list of at most 255
sections and runs for ever on a longer one (`countSimilar_eq_ok`, `countSimilar_diverges`).
The index of the section to be named is a byte as well, so from index 256 on the sections
keep the name that ninutils gives them (`settled`). Loading ends with the names unique
exactly when neither matters (`namesSections_iff`). -/
namespace Ppc2cpp
namespace Rel

/-! ### Names and numbers -/

def sectionBaseName : SectionType → String
  | .TEXT => ".text"
  | .BSS => ".bss"
  | .DATA => ".data"
  | .NOLOAD => ""

/-- The first section of a type has no number, the next one the number two. -/
def suffix (similar : Nat) : String := if similar = 0 then "" else toString (similar + 1)

def numberedName (type : SectionType) (similar : Nat) : String :=
  sectionBaseName type ++ suffix similar

theorem suffix_digits (similar : Nat) : Spans.Only Char.isDigit (suffix similar) := by
  unfold suffix
  split
  · simp [Spans.Only]
  · exact Spans.digits_toString _

theorem suffix_injective : Function.Injective suffix := by
  have hne : ∀ n : Nat, toString n ≠ "" := by
    intro n h
    have hdigits := congrArg String.toList h
    change n.repr.toList = [] at hdigits
    rw [Nat.toList_repr] at hdigits
    exact Nat.toDigits_ne_nil hdigits
  have hnil : Spans.Stops Char.isDigit ("" : String).toList := Spans.stops_nil
  intro c c' h
  unfold suffix at h
  split at h <;> split at h
  · omega
  · exact absurd h.symm (hne _)
  · exact absurd h (hne _)
  · have := (Spans.number_append_inj hnil hnil (congrArg (· ++ "") h)).1
    omega

theorem sectionBaseName_noDigits (type : SectionType) :
    Spans.Only (fun c => !c.isDigit) (sectionBaseName type) := by
  cases type <;> decide

theorem sectionBaseName_injective : Function.Injective sectionBaseName := by
  intro type type' h
  cases type <;> cases type' <;> first
    | rfl
    | simp [sectionBaseName] at h

/-- A name tells the type and the number. -/
theorem numberedName_inj {type type' : SectionType} {c c' : Nat}
    (h : numberedName type c = numberedName type' c') : type = type' ∧ c = c' := by
  have hstops : ∀ c, Spans.Stops (fun c => !c.isDigit) (suffix c).toList :=
    fun c => (suffix_digits c).stops (by simp)
  obtain ⟨hbase, hsuffix⟩ := Spans.word_append_inj (sectionBaseName_noDigits type)
    (sectionBaseName_noDigits type') (hstops c) (hstops c') h
  exact ⟨sectionBaseName_injective hbase, suffix_injective hsuffix⟩

/-! ### The loop that counts -/

/-- The types of the sections are all the loop looks at. -/
def similarCount (sections : List BinarySection) (type : SectionType) : Nat :=
  (sections.map BinarySection.type).count type

theorem similarCount_cons (s : BinarySection) (sections : List BinarySection) (type : SectionType) :
    similarCount (s :: sections) type =
      (if s.type = type then 1 else 0) + similarCount sections type := by
  rw [similarCount, List.map_cons, List.count_cons, Nat.add_comm, similarCount]
  simp only [beq_iff_eq]

/-- For the last of at most 255 sections the loop counts the sections before it. -/
theorem countSimilar_eq_ok {xs : List BinarySection} {s : BinarySection} (hlen : xs.length < 255)
    (type : SectionType) {fuel i : Nat} (hi : i ≤ xs.length + 1) (count c : BitVec 8) :
    countSimilar (xs ++ [s]) (BitVec.ofNat 8 xs.length) type fuel (BitVec.ofNat 8 i) count = .ok c ↔
      xs.length + 1 - i < fuel ∧ c = count + BitVec.ofNat 8 (similarCount (xs.drop i) type) := by
  induction fuel generalizing i count with
  | zero => simp [countSimilar]
  | succ fuel ih =>
    have hmod : (BitVec.ofNat 8 i).toNat = i := by
      rw [BitVec.toNat_ofNat]
      omega
    have hnext : BitVec.ofNat 8 i + 1 = BitVec.ofNat 8 (i + 1) := by
      rw [BitVec.ofNat_add]
      rfl
    rw [countSimilar, hmod]
    rcases Nat.lt_trichotomy i xs.length with hlt | rfl | hgt
    · have hne : BitVec.ofNat 8 i ≠ BitVec.ofNat 8 xs.length := by
        intro heq
        have := congrArg BitVec.toNat heq
        rw [hmod, BitVec.toNat_ofNat] at this
        omega
      have hcount : (if BitVec.ofNat 8 i ≠ BitVec.ofNat 8 xs.length ∧ xs[i].type = type
            then count + 1 else count) + BitVec.ofNat 8 (similarCount (xs.drop (i + 1)) type) =
          count + BitVec.ofNat 8 (similarCount (xs.drop i) type) := by
        rw [List.drop_eq_getElem_cons hlt, similarCount_cons, BitVec.ofNat_add, ← BitVec.add_assoc]
        by_cases htype : xs[i].type = type
        · rw [if_pos ⟨hne, htype⟩, if_pos htype]
          rfl
        · rw [if_neg (fun h => htype h.2), if_neg htype, BitVec.add_zero]
      rw [List.getElem?_append_left hlt, List.getElem?_eq_getElem hlt]
      dsimp only
      rw [hnext, ih (by omega), hcount]
      exact and_congr_left' (by omega)
    · have hlast : (xs ++ [s])[xs.length]? = some s := by simp
      have hend : ∀ j, xs.length ≤ j → similarCount (xs.drop j) type = 0 := by
        intro j hj
        rw [List.drop_eq_nil_of_le hj]
        rfl
      rw [hlast]
      dsimp only
      rw [hnext, ih (le_refl _), if_neg (fun h => h.1 rfl), hend _ (Nat.le_succ _),
        hend _ (le_refl _)]
      exact and_congr_left' (by omega)
    · have hpast : (xs ++ [s])[i]? = none := by
        rw [List.getElem?_eq_none]
        rw [List.length_append, List.length_singleton]
        omega
      have hend : similarCount (xs.drop i) type = 0 := by
        rw [List.drop_eq_nil_of_le (Nat.le_of_lt hgt)]
        rfl
      rw [hpast, hend]
      dsimp only
      rw [Except.ok.injEq, BitVec.add_zero, eq_comm]
      exact (and_iff_right (by omega)).symm

/-- On a longer list the variable of the loop never gets past the end. -/
theorem countSimilar_diverges {sections : List BinarySection} (hlen : 256 ≤ sections.length)
    (sec : BitVec 8) (type : SectionType) (fuel : Nat) (i count : BitVec 8) :
    countSimilar sections sec type fuel i count = .error .outOfFuel := by
  induction fuel generalizing i count with
  | zero => rfl
  | succ fuel ih =>
    have hlt : i.toNat < sections.length := lt_of_lt_of_le i.isLt hlen
    rw [countSimilar, List.getElem?_eq_getElem hlt]
    exact ih _ _

/-! ### The name of one section -/

/-- The name of a section after those before it. -/
def nameAfter (before : List BinarySection) (s : BinarySection) : String :=
  if s.type = .NOLOAD then "" else numberedName s.type (similarCount before s.type)

theorem similarCount_le (sections : List BinarySection) (type : SectionType) :
    similarCount sections type ≤ sections.length := by
  unfold similarCount
  exact List.count_le_length.trans_eq (List.length_map _)

theorem genSectionName_noload {sections : List BinarySection} {sec : BitVec 8} {s : BinarySection}
    (hs : sections[sec.toNat]? = some s) (htype : s.type = .NOLOAD) (fuel : Nat) :
    genSectionName fuel sections sec = .ok "" := by
  rw [genSectionName, at?_eq_ok.mpr hs]
  simp only [bind, Except.bind, if_pos htype]
  rfl

theorem genSectionName_eq {sections : List BinarySection} {sec : BitVec 8} {s : BinarySection}
    (hs : sections[sec.toNat]? = some s) (htype : s.type ≠ .NOLOAD) (fuel : Nat) :
    genSectionName fuel sections sec =
      (countSimilar sections sec s.type fuel 0 0).map fun c => numberedName s.type c.toNat := by
  rw [genSectionName, at?_eq_ok.mpr hs]
  simp only [bind, Except.bind, if_neg htype]
  cases countSimilar sections sec s.type fuel 0 0 with
  | error e => rfl
  | ok c =>
    dsimp only [Except.map]
    show (if c = 0 then (.ok (sectionBaseName s.type) : Except Error String)
      else .ok (sectionBaseName s.type ++ toString (c.toNat + 1))) = _
    rw [numberedName, suffix]
    by_cases hc : c = 0
    · rw [if_pos hc, hc, if_pos (by rfl), String.append_empty]
    · have hne : c.toNat ≠ 0 := fun h => hc (BitVec.eq_of_toNat_eq h)
      rw [if_neg hc, if_neg hne]

/-- The last of at most 255 sections is named after those before it. -/
theorem genSectionName_last {xs : List BinarySection} {s : BinarySection} (hlen : xs.length < 255)
    (fuel : Nat) (name : String) :
    genSectionName fuel (xs ++ [s]) (BitVec.ofNat 8 xs.length) = .ok name ↔
      (s.type ≠ .NOLOAD → xs.length + 1 < fuel) ∧ name = nameAfter xs s := by
  have hmod : (BitVec.ofNat 8 xs.length).toNat = xs.length := by
    rw [BitVec.toNat_ofNat]
    omega
  have hlast : (xs ++ [s])[(BitVec.ofNat 8 xs.length).toNat]? = some s := by
    rw [hmod]
    simp
  by_cases htype : s.type = .NOLOAD
  · rw [genSectionName_noload hlast htype, nameAfter, if_pos htype]
    simp [htype, eq_comm]
  · have hle := similarCount_le xs s.type
    have hcount : ∀ c, countSimilar (xs ++ [s]) (BitVec.ofNat 8 xs.length) s.type fuel 0 0 = .ok c ↔
        xs.length + 1 < fuel ∧ c = BitVec.ofNat 8 (similarCount xs s.type) := by
      intro c
      have h : countSimilar (xs ++ [s]) (BitVec.ofNat 8 xs.length) s.type fuel 0 0 = .ok c ↔ _ :=
        countSimilar_eq_ok hlen s.type (Nat.zero_le _) 0 c
      rw [h, Nat.sub_zero, List.drop_zero]
      simp
    have hnumber : (BitVec.ofNat 8 (similarCount xs s.type)).toNat = similarCount xs s.type := by
      rw [BitVec.toNat_ofNat]
      omega
    rw [genSectionName_eq hlast htype, map_eq_ok, nameAfter, if_neg htype, eq_comm (a := name)]
    simp only [hcount, and_assoc, exists_and_left, exists_eq_left, hnumber]
    exact and_congr_left' (imp_iff_right htype).symm

/-- In a longer list a section can only be named if nothing is loaded of it. -/
theorem genSectionName_long {sections : List BinarySection} (hlen : 256 ≤ sections.length)
    {sec : BitVec 8} {fuel : Nat} {name : String} :
    genSectionName fuel sections sec = .ok name ↔
      name = "" ∧ ∃ s, sections[sec.toNat]? = some s ∧ s.type = .NOLOAD := by
  have hlt : sec.toNat < sections.length := lt_of_lt_of_le sec.isLt hlen
  have hs := List.getElem?_eq_getElem hlt
  by_cases htype : sections[sec.toNat].type = .NOLOAD
  · rw [genSectionName_noload hs htype, hs]
    simp [htype, eq_comm]
  · rw [genSectionName_eq hs htype, countSimilar_diverges hlen, hs]
    simp [htype, Except.map]

/-! ### All sections -/

/-- The sections after they were all added: those at the first 256 places are named after
the sections before them, and the others keep the name they came with. -/
def settled (added : List BinarySection) : List BinarySection :=
  added.mapIdx fun k s => if k < 256 then {s with name := nameAfter (added.take k) s} else s

theorem settled_getElem? (added : List BinarySection) (k : Nat) :
    (settled added)[k]? = added[k]?.map fun s =>
      if k < 256 then {s with name := nameAfter (added.take k) s} else s := by
  rw [settled, List.getElem?_mapIdx]

theorem settled_length (added : List BinarySection) : (settled added).length = added.length := by
  rw [settled, List.length_mapIdx]

/-- Nothing but the names is changed. -/
theorem type_of_settled {added : List BinarySection} {k : Nat} {s : BinarySection}
    (h : (settled added)[k]? = some s) : ∃ s₀, added[k]? = some s₀ ∧ s.type = s₀.type ∧
      s.name = if k < 256 then nameAfter (added.take k) s₀ else s₀.name := by
  rw [settled_getElem?] at h
  obtain ⟨s₀, hs₀, rfl⟩ := Option.map_eq_some_iff.mp h
  refine ⟨s₀, hs₀, ?_⟩
  split
  · exact ⟨rfl, rfl⟩
  · exact ⟨rfl, rfl⟩

theorem types_settled (added : List BinarySection) :
    (settled added).map BinarySection.type = added.map BinarySection.type := by
  apply List.ext_getElem?
  intro k
  rw [List.getElem?_map, List.getElem?_map, settled_getElem?, Option.map_map]
  congr 1
  funext s
  rw [Function.comp]
  split
  · rfl
  · rfl

theorem nameAfter_settled (added : List BinarySection) (s : BinarySection) :
    nameAfter (settled added) s = nameAfter added s := by
  rw [nameAfter, nameAfter, similarCount, types_settled, similarCount]

theorem settled_append (added : List BinarySection) (s : BinarySection) :
    settled (added ++ [s]) = settled added ++
      [if added.length < 256 then {s with name := nameAfter added s} else s] := by
  apply List.ext_getElem?
  intro k
  rw [settled_getElem?, List.getElem?_append, List.getElem?_append, settled_length,
    settled_getElem?]
  by_cases hk : k < added.length
  · rw [if_pos hk, if_pos hk, List.take_append_of_le_length (Nat.le_of_lt hk)]
  · rw [if_neg hk, if_neg hk]
    by_cases heq : k = added.length
    · subst heq
      simp
    · have hpast : [s].length ≤ k - added.length := by
        rw [List.length_singleton]
        omega
      rw [List.getElem?_eq_none hpast, List.getElem?_eq_none (by simpa using hpast)]
      rfl

/-- The section at place `k` can be named: the loop is not needed or sees its end. -/
def HaltsAt (added : List BinarySection) (k : Nat) : Prop :=
  255 ≤ k → (added.map BinarySection.type)[k % 256]? = some .NOLOAD

theorem modify_last {α : Type} (xs : List α) (x : α) (f : α → α) :
    (xs ++ [x]).modify xs.length f = xs ++ [f x] := by
  rw [List.modify_eq_take_drop, List.take_left, List.drop_left]
  rfl

theorem modify_eq_of_fixed {α : Type} {xs : List α} {k : Nat} {f : α → α}
    (h : ∀ x, xs[k]? = some x → f x = x) : xs.modify k f = xs := by
  apply List.ext_getElem?
  intro i
  rw [List.getElem?_modify]
  cases hx : xs[i]? with
  | none => rfl
  | some x =>
    by_cases hi : k = i
    · subst hi
      simp [h x hx]
    · simp [hi]

section
variable {added out : List BinarySection} {s : BinarySection} {fuel : Nat}

theorem pushSection_eq_ok : pushSection fuel (settled added) s = .ok out ↔
    ∃ name, genSectionName fuel (settled added ++ [s]) (BitVec.ofNat 8 added.length) = .ok name ∧
      out = (settled added ++ [s]).modify (added.length % 256) fun s => {s with name := name} := by
  have hplace : (settled added ++ [s]).length - 1 = added.length := by
    rw [List.length_append, settled_length, List.length_singleton, Nat.add_sub_cancel]
  simp only [pushSection, hplace, bind_eq_ok, BitVec.toNat_ofNat, pure, Except.pure,
    Except.ok.injEq, eq_comm (a := out)]

theorem pushSection_short (hlen : added.length < 255) :
    pushSection fuel (settled added) s = .ok out ↔
      (s.type ≠ .NOLOAD → added.length + 1 < fuel) ∧ out = settled (added ++ [s]) := by
  have hname : ∀ name, genSectionName fuel (settled added ++ [s]) (BitVec.ofNat 8 added.length) =
      .ok name ↔ (s.type ≠ .NOLOAD → added.length + 1 < fuel) ∧ name = nameAfter added s := by
    intro name
    have hshort : (settled added).length < 255 := by
      rw [settled_length]
      exact hlen
    have hlast := genSectionName_last (s := s) hshort fuel name
    rwa [settled_length, nameAfter_settled] at hlast
  have hout : (settled added ++ [s]).modify added.length
      (fun s' => {s' with name := nameAfter added s}) = settled (added ++ [s]) := by
    rw [settled_append, if_pos (by omega), ← settled_length added, modify_last]
  rw [pushSection_eq_ok, Nat.mod_eq_of_lt (by omega)]
  simp only [hname, and_assoc, exists_and_left, exists_eq_left, hout]

/-- Past the first 255 sections, the one at the index that a byte leaves is not loaded, and
to name it leaves every name as it is. -/
theorem modify_of_haltsAt (hlen : 255 ≤ added.length)
    (hhalts : HaltsAt (added ++ [s]) added.length) :
    (settled added ++ [s]).modify (added.length % 256) (fun s => {s with name := ""}) =
      settled (added ++ [s]) := by
  have htype := hhalts hlen
  rw [List.map_append] at htype
  rcases Nat.eq_or_lt_of_le hlen with heq | hgt
  · -- the section that was added is the one that is named
    have hplace : added.length % 256 = added.length := Nat.mod_eq_of_lt (by omega)
    rw [hplace] at htype ⊢
    rw [List.getElem?_append_right (by simp), List.length_map, Nat.sub_self] at htype
    have hnoload : s.type = .NOLOAD := by simpa using htype
    rw [settled_append, if_pos (by omega), nameAfter, if_pos hnoload, ← settled_length added,
      modify_last]
  · -- a section at one of the first 256 places is named a second time
    rw [settled_append, if_neg (by omega)]
    apply modify_eq_of_fixed
    intro x hx
    have hk : added.length % 256 < 256 := Nat.mod_lt _ (by decide)
    have hplace : added.length % 256 < added.length := by omega
    rw [List.getElem?_append_left (by rwa [settled_length])] at hx
    obtain ⟨x₀, hx₀, _, hname⟩ := type_of_settled hx
    rw [List.getElem?_append_left (by rwa [List.length_map]), List.getElem?_map, hx₀,
      Option.map_some, Option.some.injEq] at htype
    rw [if_pos hk, nameAfter, if_pos htype] at hname
    rw [← hname]

theorem pushSection_long (hlen : 255 ≤ added.length) :
    pushSection fuel (settled added) s = .ok out ↔
      HaltsAt (added ++ [s]) added.length ∧ out = settled (added ++ [s]) := by
  have htypes : (settled added ++ [s]).map BinarySection.type =
      (added ++ [s]).map BinarySection.type := by
    rw [List.map_append, types_settled, List.map_append]
  have hname : ∀ name, genSectionName fuel (settled added ++ [s]) (BitVec.ofNat 8 added.length) =
      .ok name ↔ name = "" ∧ HaltsAt (added ++ [s]) added.length := by
    intro name
    have hlong : 256 ≤ (settled added ++ [s]).length := by
      rw [List.length_append, settled_length]
      exact Nat.succ_le_succ hlen
    rw [genSectionName_long hlong, HaltsAt, ← htypes, List.getElem?_map, Option.map_eq_some_iff,
      BitVec.toNat_ofNat]
    tauto
  rw [pushSection_eq_ok]
  simp only [hname, and_assoc, exists_eq_left]
  apply and_congr_right
  intro hhalts
  rw [modify_of_haltsAt hlen hhalts]

end

/-- Whether a place can be named does not depend on the sections after it. -/
theorem haltsAt_append {added : List BinarySection} {k : Nat} (hk : k < added.length)
    (more : List BinarySection) : HaltsAt (added ++ more) k ↔ HaltsAt added k := by
  have hlt : k % 256 < (added.map BinarySection.type).length := by
    rw [List.length_map]
    exact lt_of_le_of_lt (Nat.mod_le _ _) hk
  rw [HaltsAt, HaltsAt, List.map_append, List.getElem?_append_left hlt]

theorem settled_of_foldlM {rest before out : List BinarySection} {fuel : Nat}
    (hbefore : ∀ k < before.length, HaltsAt before k)
    (h : rest.foldlM (pushSection fuel) (settled before) = .ok out) :
    out = settled (before ++ rest) ∧
      ∀ k < (before ++ rest).length, HaltsAt (before ++ rest) k := by
  induction rest generalizing before with
  | nil =>
    cases h
    rw [List.append_nil]
    exact ⟨rfl, hbefore⟩
  | cons s rest ih =>
    rw [List.foldlM_cons] at h
    obtain ⟨pushed, hpushed, h⟩ := bind_eq_ok.mp h
    have hstep : HaltsAt (before ++ [s]) before.length ∧ pushed = settled (before ++ [s]) := by
      by_cases hlen : before.length < 255
      · exact ⟨fun hle => by omega, ((pushSection_short hlen).mp hpushed).2⟩
      · exact (pushSection_long (by omega)).mp hpushed
    obtain ⟨hhalts, rfl⟩ := hstep
    have hnext : ∀ k < (before ++ [s]).length, HaltsAt (before ++ [s]) k := by
      intro k hk
      rw [List.length_append, List.length_singleton] at hk
      rcases Nat.lt_succ_iff_lt_or_eq.mp hk with hlt | rfl
      · exact (haltsAt_append hlt _).mpr (hbefore k hlt)
      · exact hhalts
    simpa using ih hnext h

/-- With a round for each value of a byte, only a section that cannot be named stops it. -/
theorem foldlM_returns {rest before : List BinarySection} {fuel : Nat} (hfuel : 256 ≤ fuel)
    (hhalts : ∀ k < (before ++ rest).length, HaltsAt (before ++ rest) k) :
    rest.foldlM (pushSection fuel) (settled before) = .ok (settled (before ++ rest)) := by
  induction rest generalizing before with
  | nil =>
    rw [List.append_nil]
    rfl
  | cons s rest ih =>
    have hsplit : before ++ s :: rest = (before ++ [s]) ++ rest := by simp
    rw [hsplit] at hhalts ⊢
    have hplace : before.length < (before ++ [s]).length := by simp
    have hstep : pushSection fuel (settled before) s = .ok (settled (before ++ [s])) := by
      by_cases hlen : before.length < 255
      · exact (pushSection_short hlen).mpr ⟨fun _ => by omega, rfl⟩
      · refine (pushSection_long (by omega)).mpr ⟨?_, rfl⟩
        rw [← haltsAt_append hplace rest]
        exact hhalts _ (by simp)
    rw [List.foldlM_cons, hstep]
    exact ih hhalts

/-! ### Unique names -/

/-- Sections that something is loaded of have different names. -/
def UniqueNames (sections : List BinarySection) : Prop :=
  ∀ (i j : Nat) s t, sections[i]? = some s → sections[j]? = some t → s.type ≠ .NOLOAD →
    t.type ≠ .NOLOAD → s.name = t.name → i = j

/-- Every section can be named, and those beyond the reach of a byte, which keep the name they
come with, have names of their own: none of another such section, and none that is given
to a section within reach. -/
structure Nameable (added : List BinarySection) : Prop where
  halts : ∀ k < added.length, HaltsAt added k
  apart : ∀ (i j : Nat) s t, 256 ≤ i → 256 ≤ j → added[i]? = some s → added[j]? = some t →
    s.type ≠ .NOLOAD → t.type ≠ .NOLOAD → s.name = t.name → i = j
  fresh : ∀ (k : Nat) s, 256 ≤ k → added[k]? = some s → s.type ≠ .NOLOAD →
    ∀ type ≠ .NOLOAD, ∀ c < similarCount (added.take 255) type, s.name ≠ numberedName type c

section
variable {added : List BinarySection}

theorem place_of_getElem? {k : Nat} {s : BinarySection} (hs : added[k]? = some s) :
    (added.map BinarySection.type)[k]? = some s.type := by
  rw [List.getElem?_map, hs, Option.map_some]

/-- The name of a section within reach is its type and its number. -/
theorem nameAfter_take (hhalts : ∀ k < added.length, HaltsAt added k) {k : Nat} (hk : k < 256)
    {s : BinarySection} (hs : added[k]? = some s) (htype : s.type ≠ .NOLOAD) :
    nameAfter (added.take k) s = numberedName s.type (similarCount (added.take k) s.type) ∧
      similarCount (added.take k) s.type < similarCount (added.take 255) s.type := by
  have hplace := place_of_getElem? hs
  have hlt : k < 255 := by
    by_contra hge
    obtain rfl : k = 255 := by omega
    have hnoload := hhalts 255 (List.getElem?_eq_some_iff.mp hs).1 (le_refl _)
    rw [hplace, Option.some.injEq] at hnoload
    exact htype hnoload
  rw [nameAfter, if_neg htype]
  refine ⟨rfl, ?_⟩
  rw [similarCount, similarCount, List.map_take, List.map_take]
  exact Numbering.count_take_lt hplace hlt

/-- Every number below that of the sections of the type within reach is given out. -/
theorem exists_numbered {type : SectionType} (htype : type ≠ .NOLOAD) {c : Nat}
    (hc : c < similarCount (added.take 255) type) :
    ∃ (k : Nat) (s : BinarySection), k < 255 ∧ (settled added)[k]? = some s ∧ s.type = type ∧
      s.name = numberedName type c := by
  obtain ⟨k, hk, hcount⟩ := Numbering.exists_place hc
  rw [List.getElem?_map] at hk
  obtain ⟨s, hs, rfl⟩ := Option.map_eq_some_iff.mp hk
  have hlt : k < 255 := lt_of_lt_of_le (List.getElem?_eq_some_iff.mp hs).1 (List.length_take_le _ _)
  rw [List.getElem?_take_of_lt hlt] at hs
  refine ⟨k, _, hlt, by rw [settled_getElem?, hs, Option.map_some], ?_⟩
  rw [if_pos (by omega)]
  refine ⟨rfl, ?_⟩
  rw [← List.map_take, List.take_take, Nat.min_eq_left (Nat.le_of_lt hlt)] at hcount
  show nameAfter (added.take k) s = _
  rw [nameAfter, if_neg htype, similarCount, hcount]

theorem uniqueNames_settled_iff (hhalts : ∀ k < added.length, HaltsAt added k) :
    UniqueNames (settled added) ↔ Nameable added := by
  have hbeyond : ∀ {k : Nat} {s : BinarySection}, 256 ≤ k → added[k]? = some s →
      (settled added)[k]? = some s := by
    intro k s hk hs
    rw [settled_getElem?, hs, Option.map_some, if_neg (by omega)]
  constructor
  · intro hunique
    refine ⟨hhalts, fun i j s t hi hj hs ht => hunique i j s t (hbeyond hi hs) (hbeyond hj ht),
      fun k s hk hs hsn type htype c hc hname => ?_⟩
    obtain ⟨i, t, hi, ht, rfl, hnumbered⟩ := exists_numbered htype hc
    have := hunique k i s t (hbeyond hk hs) ht hsn htype (hname.trans hnumbered.symm)
    omega
  · intro hnameable i j s t hs ht hsn htn hname
    obtain ⟨s₀, hs₀, hstype, hsname⟩ := type_of_settled hs
    obtain ⟨t₀, ht₀, httype, htname⟩ := type_of_settled ht
    rw [hstype] at hsn
    rw [httype] at htn
    by_cases hi : i < 256
    · obtain ⟨hsnumber, hscount⟩ := nameAfter_take hhalts hi hs₀ hsn
      rw [if_pos hi, hsnumber] at hsname
      by_cases hj : j < 256
      · obtain ⟨htnumber, _⟩ := nameAfter_take hhalts hj ht₀ htn
        rw [if_pos hj, htnumber] at htname
        obtain ⟨htype, hcount⟩ := numberedName_inj (hsname.symm.trans (hname.trans htname))
        rw [similarCount, similarCount, ← htype, List.map_take, List.map_take] at hcount
        exact Numbering.place_unique (place_of_getElem? hs₀)
          (by rw [htype]; exact place_of_getElem? ht₀) hcount
      · rw [if_neg hj] at htname
        exact absurd (htname.symm.trans (hname.symm.trans hsname))
          (hnameable.fresh j t₀ (by omega) ht₀ htn _ hsn _ hscount)
    · rw [if_neg hi] at hsname
      by_cases hj : j < 256
      · obtain ⟨htnumber, htcount⟩ := nameAfter_take hhalts hj ht₀ htn
        rw [if_pos hj, htnumber] at htname
        exact absurd (hsname.symm.trans (hname.trans htname))
          (hnameable.fresh i s₀ (by omega) hs₀ hsn _ htn _ htcount)
      · rw [if_neg hj] at htname
        exact hnameable.apart i j s₀ t₀ (by omega) (by omega) hs₀ ht₀ hsn htn
          (hsname.symm.trans (hname.trans htname))

end

/-! ### Looking a section up -/

/-- In a program whose first binary of that name is `b`, the name of a section that something is
loaded of leads to that section. -/
def Designates (b : Binary) : Prop :=
  ∀ (L : ProgramLoader) (i : Nat), L.binaries[i]? = some b →
    (∀ j < i, ∀ b', L.binaries[j]? = some b' → b'.name ≠ b.name) →
    ∀ (k : Nat) s, b.sections[k]? = some s → s.type ≠ .NOLOAD →
      ∀ offset, offset.ult s.length = true →
        L.getLocation b.name s.name offset = some ⟨⟨k, offset⟩, i⟩

theorem findSome?_of_getElem? {α β : Type} {f : α → Option β} {xs : List α} {i : Nat} {x : α}
    {y : β} (hx : xs[i]? = some x) (hy : f x = some y)
    (hbefore : ∀ j < i, ∀ x', xs[j]? = some x' → f x' = none) : xs.findSome? f = some y := by
  obtain ⟨hlt, rfl⟩ := List.getElem?_eq_some_iff.mp hx
  rw [List.findSome?_eq_some_iff]
  refine ⟨xs.take i, xs[i], xs.drop (i + 1), ?_, hy, fun x' hx' => ?_⟩
  · rw [List.getElem_cons_drop, List.take_append_drop]
  · obtain ⟨j, hj, rfl⟩ := List.mem_take_iff_getElem.mp hx'
    have hj' : j < i ∧ j < xs.length := Nat.lt_min.mp hj
    exact hbefore j hj'.1 _ (List.getElem?_eq_getElem hj'.2)

theorem designates_of_uniqueNames {b : Binary} (hunique : UniqueNames b.sections)
    (hempty : ∀ s ∈ b.sections, s.type = .NOLOAD → s.length = 0) : Designates b := by
  intro L i hb hfirst k s hs htype offset hoffset
  have hsection : b.sections.findIdx? (fun s' => s'.name == s.name && offset.ult s'.length) =
      some k := by
    obtain ⟨hlt, hget⟩ := List.getElem?_eq_some_iff.mp hs
    rw [List.findIdx?_eq_some_iff_getElem]
    refine ⟨hlt, ?_, fun j hj htest => ?_⟩
    · rw [hget]
      simp [hoffset]
    · have hj' := List.getElem?_eq_getElem (Nat.lt_trans hj hlt)
      simp only [Bool.and_eq_true, beq_iff_eq] at htest
      have hloaded : b.sections[j].type ≠ .NOLOAD := by
        intro hnoload
        rw [hempty _ (List.getElem_mem _) hnoload] at htest
        simp [BitVec.ult] at htest
      have := hunique j k _ s hj' hs hloaded htype htest.1
      omega
  refine findSome?_of_getElem? (i := i) (x := (b, i)) ?_ ?_ ?_
  · rw [List.getElem?_zipIdx, hb]
    simp
  · dsimp only
    rw [if_pos rfl, hsection]
    rfl
  · intro j hj p hp
    rw [List.getElem?_zipIdx] at hp
    obtain ⟨b', hb', rfl⟩ := Option.map_eq_some_iff.mp hp
    dsimp only
    rw [if_neg (hfirst j hj b' hb')]

/-! ### Loading -/

theorem ofNin_type_eq_noload {file : Bytes} {rel : NinRel} {n : NinRelSection} :
    (RelSection.ofNin file rel n).type = .NOLOAD ↔ n.length = 0 := by
  unfold RelSection.ofNin
  dsimp only
  split
  · next hzero => exact iff_of_true rfl hzero
  · next hne =>
    split
    · exact iff_of_false (by decide) hne
    · split
      · exact iff_of_false (by decide) hne
      · exact iff_of_false (by decide) hne

/-- Loading the REL ends, its names are unique, and each leads to its section. -/
structure NamesSections (formats : Formats) (fs : FileSystem) (path : String) : Prop where
  terminates : ∃ fuel b, load formats fuel fs path = .ok b
  unique : ∀ fuel b, load formats fuel fs path = .ok b → UniqueNames b.sections
  designates : ∀ fuel b, load formats fuel fs path = .ok b → Designates b.toBinary

section
variable {formats : Formats} {fs : FileSystem} {path : String} {file : Bytes} {rel : NinRel}

theorem haltsAt_nil : ∀ k < ([] : List BinarySection).length, HaltsAt [] k :=
  fun k hk => absurd hk (Nat.not_lt_zero k)

theorem settled_of_load (hfile : fs path = some file) (hrel : formats.rel file = .ok rel)
    {fuel : Nat} {b : LoadedBinary} (h : load formats fuel fs path = .ok b) :
    b.sections = settled (rel.sections.map (RelSection.ofNin file rel)) ∧
      ∀ k < (rel.sections.map (RelSection.ofNin file rel)).length,
        HaltsAt (rel.sections.map (RelSection.ofNin file rel)) k := by
  simp only [load, bind_eq_ok] at h
  obtain ⟨data, hdata, rel', hrel', sections, hsections, h⟩ := h
  cases h
  obtain rfl := Option.some.inj ((readFile_eq_ok.mp hdata).symm.trans hfile)
  obtain rfl := Except.ok.inj (hrel'.symm.trans hrel)
  have hsettled : sections = settled ([] ++ _) ∧ _ := settled_of_foldlM haltsAt_nil hsections
  rw [List.nil_append] at hsettled
  exact hsettled

theorem load_returns (hfile : fs path = some file) (hrel : formats.rel file = .ok rel)
    (hhalts : ∀ k < (rel.sections.map (RelSection.ofNin file rel)).length,
      HaltsAt (rel.sections.map (RelSection.ofNin file rel)) k) :
    ∃ b, load formats 256 fs path = .ok b := by
  simp only [load, bind_eq_ok]
  have hsections := @foldlM_returns _ [] _ (le_refl 256) hhalts
  exact ⟨_, file, readFile_eq_ok.mpr hfile, rel, hrel, _, hsections, rfl⟩

/-- The sections that are not loaded are those without a length. -/
theorem length_of_noload {fuel : Nat} {b : LoadedBinary} (h : load formats fuel fs path = .ok b) :
    ∀ s ∈ b.sections, s.type = .NOLOAD → s.length = 0 := by
  intro s hs htype
  obtain ⟨rel, _, hsections⟩ := load_sections h
  obtain ⟨n, _, name, rfl⟩ := forall₂_exists_left hsections hs
  have hnoload : (RelSection.ofNin b.data rel n).type = .NOLOAD := htype
  exact ofNin_type_eq_noload.mp hnoload

/-- **A REL is loaded with names that tell its sections apart iff all its sections can be named
and those beyond the reach of a byte come with names of their own.** -/
theorem namesSections_iff (hfile : fs path = some file) (hrel : formats.rel file = .ok rel) :
    NamesSections formats fs path ↔ Nameable (rel.sections.map (RelSection.ofNin file rel)) := by
  constructor
  · intro h
    obtain ⟨fuel, b, hload⟩ := h.terminates
    obtain ⟨hsections, hhalts⟩ := settled_of_load hfile hrel hload
    rw [← uniqueNames_settled_iff hhalts, ← hsections]
    exact h.unique fuel b hload
  · intro hnameable
    have hunique : ∀ fuel b, load formats fuel fs path = .ok b → UniqueNames b.sections := by
      intro fuel b hload
      rw [(settled_of_load hfile hrel hload).1]
      exact (uniqueNames_settled_iff hnameable.halts).mpr hnameable
    exact ⟨⟨256, load_returns hfile hrel hnameable.halts⟩, hunique, fun fuel b hload =>
      designates_of_uniqueNames (hunique fuel b hload) (length_of_noload hload)⟩

end

def dataSection : NinRelSection := ⟨"", 0x40, 4, false, false⟩

/-- A REL of 256 data sections. -/
def manyRel : NinRel := ⟨1, List.replicate 256 dataSection, [], 0, 0⟩

def manyFormats : Formats where
  elf _ := ⟨0, [], []⟩
  dol _ := .ok []
  rel _ := .ok manyRel

/-- The loop for the name of the last section does not end. -/
theorem manyRel_not_named : ¬ ∀ formats fs path file rel, fs path = some file →
    formats.rel file = .ok rel → NamesSections formats fs path := by
  intro h
  obtain ⟨fuel, b, hload⟩ :=
    (h manyFormats (fun _ => some []) "a.rel" [] manyRel rfl rfl).terminates
  have hhalts := (settled_of_load rfl rfl hload).2 255
  have hsections : manyRel.sections.map (RelSection.ofNin [] manyRel) =
      List.replicate 256 (RelSection.ofNin [] manyRel dataSection) := List.map_replicate
  rw [hsections, HaltsAt, List.length_replicate, List.map_replicate,
    List.getElem?_replicate_of_lt (by decide), Option.some.injEq, ofNin_type_eq_noload] at hhalts
  exact absurd (hhalts (by decide) (le_refl _)) (by decide)

theorem namesSections_iff_branchRel :
    NamesSections branchFormats (fun _ => some branchFile) "branch.rel" ↔
      Nameable (branchRel.sections.map (RelSection.ofNin branchFile branchRel)) :=
  namesSections_iff rfl rfl

end Rel
end Ppc2cpp
