import Xv6Paging.Kernel.Pte

/-! # Build configuration and faults

What is fixed when the kernel is compiled and linked, and the ways in which a kernel
computation can go wrong.
-/
namespace Xv6Paging

inductive Build
  | none | scfifo | nfua | lapa | aq
  deriving DecidableEq, Repr

/-- What is fixed at compile and link time: the build and the symbols `data` and `end`. -/
structure Config where
  build : Build
  dataAddr : ℕ
  endAddr : ℕ
  data_aligned : pgSize ∣ dataAddr
  kernLink_lt_data : kernLink < dataAddr
  data_le_end : dataAddr ≤ endAddr
  end_lt : endAddr < kernBase+phystop

/-- A call of `panic`, a use of a null pointer, a use of the null that `kalloc` returned, a pointer outside
its array, a loop that does not end. -/
inductive Fault
  | panic (msg : String)
  | nullDeref
  | kallocNull
  | outOfBounds
  | diverges
  deriving DecidableEq, Repr

end Xv6Paging
