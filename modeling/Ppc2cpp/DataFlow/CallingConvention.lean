import Ppc2cpp.Model.CpuMemory

/-! Which registers a call reads, kills and defines.

The three sets are hash sets of constants. Nothing the analysis computes depends on
their iteration order but the order of the return sinks of an exit block, which is the
same in every function of a run. The return values are listed in the order in which
libstdc++ enumerates them, from the last to the first; the other sets as they are written. -/
namespace Ppc2cpp

def registers (space : CpuMemorySpace) (values : List Int) : List CpuMemoryLocation :=
  values.map fun value => ⟨space, value⟩

/-- Function arguments: memory locations in the calling function that a called function
can use. -/
def callInputs : List CpuMemoryLocation :=
  registers .GPR [3, 4, 5, 6, 7, 8, 9, 10] ++ registers .FPR [1, 2, 3, 4, 5, 6, 7, 8]

/-- Volatile memory locations, considered not defined after a called function returns. -/
def killedByCall : List CpuMemoryLocation :=
  registers .GPR [0, 3, 4, 5, 6, 7, 8, 9, 10, 11, 12] ++
  registers .FPR [0, 1, 2, 3, 4, 5, 6, 7, 8, 9, 10, 11, 12, 13] ++
  registers .CR_BIT [0, 1, 2, 3, 4, 5, 6, 7, 8, 21, 22, 23, 24, 25, 26, 27, 28, 29, 30, 31] ++
  registers .SPR [sprValueLR, sprValueXER, sprValueCTR]

/-- Function return values: memory locations a called function can affect in the calling
function. -/
def definedByCall : List CpuMemoryLocation := registers .FPR [1] ++ registers .GPR [4, 3]

/-- Every location of the three sets names a storage element. -/
theorem slot_of_call {loc : CpuMemoryLocation}
    (h : loc ∈ callInputs ++ killedByCall ++ definedByCall) : loc.slot?.isSome = true := by
  revert loc
  decide

end Ppc2cpp
