import JanuaryOs.Base

/-!
# Permission bits of areas (`VmFlags`) and of page table entries (`PteFlags`)

Both are bit sets in the kernel. Here a bit is a Boolean field, so that setting
and clearing one is a record update and the others are visibly untouched. The
present and the user bit are part of every flags word that the modelled code
gives to a user page; they are left out.
-/

namespace JanuaryOs.Virt

/-- The bits in which user page table entries differ. -/
structure PteFlags where
  writable : Bool
  noExecute : Bool
  deriving Repr, DecidableEq, Inhabited

/-- Permissions and kind of a virtual memory area. -/
structure VmFlags where
  read : Bool := false
  write : Bool := false
  exec : Bool := false
  shared : Bool := false
  anonymous : Bool := false
  growsdown : Bool := false
  heap : Bool := false
  code : Bool := false
  data : Bool := false
  mayWrite : Bool := false
  deriving Repr, DecidableEq, Inhabited

/-- The page table bits of a user area (`to_user_pte_flags`). -/
def VmFlags.toUserPteFlags (f : VmFlags) : PteFlags where
  writable := f.write
  noExecute := !f.exec

/-- Drop the writable bit: what `fork` leaves on both sides of a private page. -/
def PteFlags.clearWritable (f : PteFlags) : PteFlags := { f with writable := false }

end JanuaryOs.Virt
