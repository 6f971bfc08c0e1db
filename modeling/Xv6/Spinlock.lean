/-!
# Spinlocks

`holding` and `release` of kernel/spinlock.c as far as their checks go : the lock word, the
CPU that holds it, and the two ways a call ends in the kernel stopping. A pointer to a lock
is an `Option`; loading a field through the null pointer faults, since the kernel maps
nothing at address 0.
-/

namespace Xv6

/-- `struct spinlock`, without its name. -/
structure Spinlock where
  locked : Bool
  cpu : Option Nat
  deriving DecidableEq, Repr

/-- How a call stops the kernel. -/
inductive Fault
  /-- A load through the null pointer. -/
  | nullDeref
  /-- `panic("release")`. -/
  | release
  deriving DecidableEq, Repr

/-- Whether the CPU `mycpu` holds the lock. -/
def holding (lk : Option Spinlock) (mycpu : Nat) : Except Fault Bool :=
  match lk with
  | none => .error .nullDeref
  | some l => .ok (l.locked && l.cpu == some mycpu)

/-- `release` : the lock word and the holder are cleared, after the check that the caller
holds the lock. -/
def release (lk : Option Spinlock) (mycpu : Nat) : Except Fault Spinlock := do
  if !(← holding lk mycpu) then
    throw .release
  return { locked := false, cpu := none }

end Xv6
