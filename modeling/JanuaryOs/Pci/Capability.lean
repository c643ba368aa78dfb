import JanuaryOs.Lib.Memory

/-!
# The search for a PCI capability (`find_capability` in `drivers/pci/pci.rs`)

The capabilities of a device form a list in its configuration space. What the
list is depends on the bytes of the space only: a capability is its id followed
by a pointer to the next one, and the low two bits of all pointers are reserved
and have to be masked. `find_capability` masks the first pointer and no other,
and it follows the list without a bound on its rounds. So a list that leads back
into itself is followed forever, unless the capability is on it; and where a
next pointer has a reserved bit, the offset that is returned or read is not that
of a capability.
-/

namespace JanuaryOs.Pci

open Lib Relation

/-! ### The list -/

namespace CapList

variable (space : ByteMem) (capId : ℕ)

/-- A byte of the configuration space. -/
def byteAt (offset : ℕ) : ℕ := (space offset).toNat

/-- Bit 4 of the status register. -/
def present : Bool := (byteAt space 0x06).testBit 4

/-- The first capability, without the reserved bits of the pointer. -/
def first : ℕ := byteAt space 0x34 &&& 0xFC

/-- The next capability, or null at the end of the list. -/
def next (offset : ℕ) : ℕ := byteAt space (offset + 1) &&& 0xFC

/-- A capability is linked to the next one. -/
def Link (o o' : ℕ) : Prop := o ≠ 0 ∧ o' = next space o

/-- Following the list leads to an offset, which may be the null at its end. -/
def Reaches (o : ℕ) : Prop := present space = true ∧ ReflTransGen (Link space) (first space) o

/-- The list has a capability with the id there. -/
def Listed (o : ℕ) : Prop := Reaches space o ∧ o ≠ 0 ∧ byteAt space o = capId

/-- A link that a search follows, as the capability is not the one it looks for. -/
def Follow (o o' : ℕ) : Prop := Link space o o' ∧ byteAt space o ≠ capId

/-- The next pointers that a search follows have no reserved bits. -/
def Clean : Prop :=
  ∀ o o', ReflTransGen (Follow space capId) (first space) o → Follow space capId o o' →
    byteAt space (o + 1) &&& 3 = 0

end CapList

/-! ### The search -/

/-- The bytes of the configuration space of a device, and whether they are read
with ECAM. -/
structure Config where
  space : ByteMem
  ecam : Bool

namespace Config

open CapList

variable (cfg : Config) (capId : ℕ)

/-- `read_config_32`; the ports ignore the low bits of an offset. -/
def readConfig32 (offset : ℕ) : ℕ :=
  cfg.space.loadBytes 4 (if cfg.ecam then offset else offset &&& 0xFC)

/-- Bit 4 of the status register, as `read_header` finds it. -/
def hasList : Bool := (cfg.readConfig32 0x04 / 2 ^ 16).testBit 4

/-- The first offset, without its reserved bits. -/
def capPointer : ℕ := cfg.readConfig32 0x34 % 2 ^ 8 &&& 0xFC

/-- The id that is read at an offset. -/
def id (offset : ℕ) : ℕ := cfg.readConfig32 offset % 2 ^ 8

/-- The next offset that is read there, with its reserved bits. -/
def next (offset : ℕ) : ℕ := cfg.readConfig32 offset / 2 ^ 8 % 2 ^ 8

/-- The loop of `find_capability`, if `n` rounds are enough for it. -/
def search : ℕ → ℕ → Option (Option ℕ)
  | 0, _ => none
  | n + 1, offset =>
    if offset = 0 then some none
    else if cfg.id offset = capId then some (some offset)
    else search n (cfg.next offset)

/-- What `find_capability` returns, if it does so within `n` rounds. -/
def findCapability (n : ℕ) : Option (Option ℕ) :=
  if cfg.hasList then cfg.search capId n cfg.capPointer else some none

/-- The search returns an offset with the id if the list has one, and otherwise
nothing. -/
def Finds : Prop :=
  ∃ n r, cfg.findCapability capId n = some r ∧ (∀ o, r = some o → Listed cfg.space capId o) ∧
    (r = none → ∀ o, ¬ Listed cfg.space capId o)

variable {cfg capId} {n o o' : ℕ} {r : Option ℕ} {space : ByteMem}

/-! ### Reads -/

theorem byteAt_lt (space : ByteMem) (o : ℕ) : byteAt space o < 256 := (space o).toNat_lt

/-- At an offset of a capability both ways to read give its bytes. -/
theorem readConfig32_eq (ho : o &&& 0xFC = o) : cfg.readConfig32 o = cfg.space.loadBytes 4 o := by
  rw [readConfig32]
  split
  · rfl
  · rw [ho]

theorem loadBytes_four (space : ByteMem) (o : ℕ) : space.loadBytes 4 o = byteAt space o
    + 256 * (byteAt space (o + 1)
      + 256 * (byteAt space (o + 2) + 256 * byteAt space (o + 3))) := rfl

theorem id_eq_byteAt (ho : o &&& 0xFC = o) : cfg.id o = byteAt cfg.space o := by
  have := byteAt_lt cfg.space o
  rw [id, readConfig32_eq ho, loadBytes_four]
  omega

theorem next_eq_byteAt (ho : o &&& 0xFC = o) : cfg.next o = byteAt cfg.space (o + 1) := by
  have := byteAt_lt cfg.space o
  have := byteAt_lt cfg.space (o + 1)
  rw [next, readConfig32_eq ho, loadBytes_four]
  omega

theorem hasList_eq : cfg.hasList = present cfg.space := by
  have h4 := byteAt_lt cfg.space 4
  have h5 := byteAt_lt cfg.space (4 + 1)
  have h6 := byteAt_lt cfg.space (4 + 2)
  have hbyte : cfg.readConfig32 4 / 2 ^ 16 % 2 ^ 8 = byteAt cfg.space (4 + 2) := by
    rw [readConfig32_eq (by decide), loadBytes_four]
    omega
  rw [hasList, present, ← hbyte, Nat.testBit_mod_two_pow]
  rfl

theorem capPointer_eq : cfg.capPointer = first cfg.space := by
  rw [capPointer, first]
  exact congrArg (· &&& 0xFC) (id_eq_byteAt (by decide))

/-- Pointers without their reserved bits are offsets of capabilities. -/
theorem mask_mask (x : ℕ) : x &&& 0xFC &&& 0xFC = x &&& 0xFC := Nat.and_assoc x 0xFC 0xFC

theorem mask_of_clean {x : ℕ} (hx : x < 256) (hclean : x &&& 3 = 0) : x &&& 0xFC = x := by
  have hall : ∀ x : Fin 256, x.val &&& 3 = 0 → x.val &&& 0xFC = x.val := by
    decide +kernel
  exact hall ⟨x, hx⟩ hclean

/-! ### Rounds -/

/-- The search is at an offset that following the list leads to. -/
structure At (space : ByteMem) (capId o : ℕ) : Prop where
  reached : ReflTransGen (Follow space capId) (first space) o
  aligned : o &&& 0xFC = o

theorem at_first (space : ByteMem) (capId : ℕ) : At space capId (first space) :=
  ⟨.refl, mask_mask _⟩

/-- Where no followed pointer has a reserved bit, a round goes on to the next
capability. -/
theorem At.next (h : At cfg.space capId o) (hclean : Clean cfg.space capId) (hnull : o ≠ 0)
    (hid : cfg.id o ≠ capId) : cfg.next o = CapList.next cfg.space o ∧
      At cfg.space capId (cfg.next o) := by
  rw [id_eq_byteAt h.aligned] at hid
  have hfollow : Follow cfg.space capId o (CapList.next cfg.space o) := ⟨⟨hnull, rfl⟩, hid⟩
  have hmask := mask_of_clean (byteAt_lt _ _) (hclean o _ h.reached hfollow)
  have hnext : cfg.next o = CapList.next cfg.space o :=
    (next_eq_byteAt h.aligned).trans hmask.symm
  rw [hnext]
  exact ⟨rfl, h.reached.tail hfollow, mask_mask _⟩

theorem search_spec (hclean : Clean cfg.space capId) (hat : At cfg.space capId o)
    (h : cfg.search capId n o = some r) :
    (∀ o', r = some o' → ReflTransGen (Link cfg.space) o o' ∧ o' ≠ 0 ∧
      byteAt cfg.space o' = capId) ∧
      (r = none → ReflTransGen (Link cfg.space) o 0 ∧
        ∀ o', ReflTransGen (Link cfg.space) o o' → o' ≠ 0 → byteAt cfg.space o' ≠ capId) := by
  fun_induction search cfg capId n o with
  | case1 => cases h
  | case2 n =>
    cases h
    refine ⟨nofun, fun _ => ⟨.refl, fun o' hreach hne => ?_⟩⟩
    -- no link leads on from null
    obtain rfl | ⟨_, hlink, -⟩ := hreach.cases_head
    · exact absurd rfl hne
    · exact absurd rfl hlink.1
  | case3 n o hnull hid =>
    cases h
    refine ⟨?_, nofun⟩
    rintro _ ⟨⟩
    exact ⟨.refl, hnull, (id_eq_byteAt hat.aligned).symm.trans hid⟩
  | case4 n o hnull hid ih =>
    obtain ⟨heq, hat'⟩ := hat.next hclean hnull hid
    obtain ⟨hsome, hnone⟩ := ih hat' h
    have hlink : Link cfg.space o (cfg.next o) := ⟨hnull, heq⟩
    refine ⟨fun o' hr => ?_, fun hr => ⟨.head hlink (hnone hr).1, fun o' hreach => ?_⟩⟩
    · exact ⟨.head hlink (hsome o' hr).1, (hsome o' hr).2⟩
    · obtain rfl | ⟨_, ⟨-, rfl⟩, hrest⟩ := hreach.cases_head
      · rw [id_eq_byteAt hat.aligned] at hid
        exact fun _ => hid
      · rw [← heq] at hrest
        exact (hnone hr).2 o' hrest

/-- A search from where the list comes to its end or to the capability returns. -/
theorem search_returns (hclean : Clean cfg.space capId) (hat : At cfg.space capId o)
    (h : ReflTransGen (Link cfg.space) o o') (hend : o' = 0 ∨ byteAt cfg.space o' = capId) :
    ∃ n r, cfg.search capId n o = some r := by
  induction h using ReflTransGen.head_induction_on with
  | refl =>
    refine ⟨1, ?_⟩
    rw [search]
    split
    · exact ⟨_, rfl⟩
    · rename_i hnull
      exact ⟨_, if_pos ((id_eq_byteAt hat.aligned).trans (hend.resolve_left hnull))⟩
  | @head o _ hlink _ ih =>
    obtain ⟨hnull, rfl⟩ := hlink
    by_cases hid : cfg.id o = capId
    · exact ⟨1, some o, by rw [search, if_neg hnull, if_pos hid]⟩
    obtain ⟨heq, hat'⟩ := hat.next hclean hnull hid
    obtain ⟨n, r, hn⟩ := ih (heq ▸ hat')
    exact ⟨n + 1, r, by rw [search, if_neg hnull, if_neg hid, heq, hn]⟩

/-- A device with a list of two capabilities, with a given pointer from the
first to the second. -/
def twoLinked (pointer : UInt8) (ecam : Bool) : Config :=
  ⟨fun x => if x = 0x06 then 0x10 else if x = 0x34 then 0x40 else if x = 0x40 then 1
    else if x = 0x41 then pointer else if x = 0x50 then 5 else 0, ecam⟩

/-- A device whose only capability is linked to itself. -/
def selfLinked (ecam : Bool) : Config :=
  ⟨fun x => if x = 0x06 then 0x10 else if x = 0x34 ∨ x = 0x41 then 0x40 else 0, ecam⟩

end Config

end JanuaryOs.Pci
