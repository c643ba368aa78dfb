import JanuaryOs.Base

/-!
# Path normalisation

The kernel has it twice: `FsState::normalize_path` of `fs/runtime/manager.rs`
and `normalize_path` of `fs/vfs/path.rs`. Strings are lists of characters.
-/

namespace JanuaryOs.Fs

open List

/-- A path, or a component of one. -/
abbrev Path := List Char

inductive FsError
  | notFound
  | notDirectory
  | isDirectory
  | invalidInput
  | permissionDenied
  | alreadyExists
  | busy
  | notSupported
  | io
  deriving Repr, DecidableEq

/-- The body of the loops over components. -/
def pushComponent (parts : List Path) (comp : Path) : List Path :=
  if comp = [] ∨ comp = ['.'] then parts
  else if comp = ['.', '.'] then parts.dropLast
  else parts ++ [comp]

/-- The loop that writes the result. -/
def absolute (parts : List Path) : Path := '/' :: ['/'].intercalate parts

def FsState.normalizePath (base input : Path) : Except Errno Path :=
  if input = [] then .error .ENOENT
  else
    let seed := if base.head? = some '/' then base else '/' :: base
    let parts :=
      if input.head? = some '/' then [] else (seed.splitOn '/').foldl pushComponent []
    .ok (absolute ((input.splitOn '/').foldl pushComponent parts))

/-- The one of `fs/vfs/path.rs`. -/
def normalizePath (cwd input : Path) : Except FsError Path :=
  if input = [] then .error .notFound
  else
    let parts := if input.head? = some '/' then [] else (cwd.splitOn '/').foldl pushComponent []
    .ok (absolute ((input.splitOn '/').foldl pushComponent parts))

/-! ### What the two compute -/

/-- One component further from a directory, which is the stack of the names on
the way to it. The parent of the root is the root. -/
def enter (dir : List Path) (comp : Path) : List Path :=
  if comp = [] ∨ comp = ['.'] then dir else if comp = ['.', '.'] then dir.tail else comp :: dir

/-- Where a path leads to from a directory. -/
def walk (dir : List Path) (p : Path) : List Path := (p.splitOn '/').foldl enter dir

def IsName (c : Path) : Prop := c ≠ [] ∧ c ≠ ['.'] ∧ c ≠ ['.', '.'] ∧ '/' ∉ c

/-- The root, or names with one slash before each. -/
def Canonical (p : Path) : Prop := ∃ names, (∀ c ∈ names, IsName c) ∧ p = absolute names

variable {p base : Path} {names path : List Path}

theorem foldl_pushComponent (parts path : List Path) :
    path.foldl pushComponent parts = (path.foldl enter parts.reverse).reverse := by
  induction path generalizing parts with
  | nil => simp
  | cons c path ih =>
    rw [foldl_cons, foldl_cons, ih, pushComponent, enter]
    split_ifs <;> simp

theorem foldl_names (h : ∀ c ∈ names, IsName c) (parts : List Path) :
    names.foldl pushComponent parts = parts ++ names := by
  induction names generalizing parts with
  | nil => simp
  | cons c names ih =>
    obtain ⟨hempty, hdot, hdots, -⟩ := h c mem_cons_self
    rw [foldl_cons, ih fun d hd => h d (mem_cons_of_mem _ hd), pushComponent,
      if_neg (by tauto), if_neg hdots, append_assoc, singleton_append]

theorem foldl_absolute (h : ∀ c ∈ names, IsName c) :
    ((absolute names).splitOn '/').foldl pushComponent [] = names := by
  rw [absolute, splitOn_cons_eq_if_modifyHead, if_pos (beq_self_eq_true _), foldl_cons]
  by_cases hnil : names = []
  · rw [hnil]
    decide
  · rw [splitOn_intercalate _ (fun c hc => (h c hc).2.2.2) hnil, foldl_names h]
    rfl

theorem slash_not_mem {c : Path} (hc : c ∈ p.splitOn '/') : '/' ∉ c := by
  induction p generalizing c with
  | nil => simp_all
  | cons x p ih =>
    rw [splitOn_cons_eq_if_modifyHead] at hc
    cases hsplit : p.splitOn '/' with
    | nil => exact absurd hsplit (splitOn_ne_nil _ _)
    | cons c' rest =>
      rw [hsplit, modifyHead_cons] at hc
      grind

theorem isName_foldl (h : ∀ c ∈ names, IsName c) (hpath : ∀ c ∈ path, '/' ∉ c) :
    ∀ c ∈ path.foldl pushComponent names, IsName c := by
  induction path generalizing names with
  | nil => exact h
  | cons c path ih =>
    refine ih ?_ fun d hd => hpath d (mem_cons_of_mem _ hd)
    unfold pushComponent
    split_ifs with hskip hup
    · exact h
    · exact fun d hd => h d (mem_of_mem_dropLast hd)
    · intro d hd
      rcases mem_append.1 hd with hd | hd
      · exact h d hd
      · obtain rfl := mem_singleton.1 hd
        exact ⟨mt .inl hskip, mt .inr hskip, hup, hpath d mem_cons_self⟩

/-- **Path normalisation.** Both functions walk from `base`, or from the root,
along the input. The result is canonical, and is its own normal form. -/
theorem normalizePath_spec (hbase : Canonical base) (input : Path) :
    (FsState.normalizePath base input).toOption = (normalizePath base input).toOption ∧
    absolute (walk [] base).reverse = base ∧
    (normalizePath base input).toOption = (if input = [] then none else some (absolute
      (walk (if input.head? = some '/' then [] else walk [] base) input).reverse)) ∧
    ∀ p ∈ (normalizePath base input).toOption, Canonical p ∧ ∀ base',
      FsState.normalizePath base' p = .ok p ∧ normalizePath base' p = .ok p := by
  obtain ⟨names, hnames, rfl⟩ := hbase
  have hhead : ∀ names, (absolute names).head? = some '/' := fun _ => rfl
  have hwalk : walk [] (absolute names) = names.reverse := by
    rw [← reverse_reverse (walk _ _), walk, ← reverse_nil, ← foldl_pushComponent,
      foldl_absolute hnames]
  refine ⟨?_, by rw [hwalk, reverse_reverse], ?_, fun p hp => ?_⟩
  · simp only [FsState.normalizePath, normalizePath, hhead, if_true]
    split <;> rfl
  · rw [hwalk]
    simp only [normalizePath, foldl_absolute hnames, walk, foldl_pushComponent]
    split
    · rfl
    · split <;> rfl
  · simp only [normalizePath, foldl_absolute hnames] at hp
    split at hp
    · cases hp
    obtain rfl := Option.some.inj hp
    have hseed : ∀ c ∈ if input.head? = some '/' then [] else names, IsName c := by
      split
      exacts [by simp, hnames]
    have hnames' := isName_foldl hseed fun c (hc : c ∈ input.splitOn '/') => slash_not_mem hc
    generalize (input.splitOn '/').foldl pushComponent _ = names' at hnames'
    refine ⟨⟨names', hnames', rfl⟩, fun base' => ?_⟩
    have hne : absolute names' ≠ [] := cons_ne_nil _ _
    simp only [FsState.normalizePath, normalizePath, if_neg hne, hhead, if_true,
      foldl_absolute hnames', and_self]

theorem normalizePath_spec_root :
    normalizePath ['/'] ['a', '/', '.', '.', '/', '.', '.'] = .ok ['/'] ∧ Canonical ['/'] := by
  have hroot : Canonical ['/'] := ⟨[], by simp, rfl⟩
  have hup : normalizePath ['/'] ['a', '/', '.', '.', '/', '.', '.'] = .ok ['/'] := by decide
  exact ⟨hup, ((normalizePath_spec hroot _).2.2.2 _ (congrArg Except.toOption hup)).1⟩

end JanuaryOs.Fs
