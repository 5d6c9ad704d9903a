import Mathlib.Data.List.Basic

namespace Userfs

/-!
# Faults and global constants

`global/defs.h` ends the process in two ways, `panic` with a message and
`userfs_assert`.  The model adds the ways a run ends that C leaves implicit: an
access outside a mapping, a transfer behind the end of a device (`storage`), a mutex
that its holder locks again (`deadlock`), and, for the loops of the model only, an
exhausted iteration budget.
-/

/-- The reasons for which a modelled operation does not return. -/
inductive Fault where
  | panic (message : String)
  | assertion (condition : String)
  | segfault
  | storage (device : Nat)
  | deadlock
  | outOfFuel
deriving DecidableEq, Repr

/-- `g_block_size_bytes`. -/
def gBlockSizeBytes : Nat := 4096

/-- `g_lblock_size_bytes`, the 2 MB unit in which device space is allocated and
files are striped. -/
def chunkSize : Nat := 2097152

end Userfs
