import DhcpToolset.CText
import DhcpToolset.Traced

/-!
# The configuration file

`config_load` reads `config.ini` from the directory of the module. It cuts the path of the module
at its last backslash, appends the name of the file in the same buffer of `MAX_PATH` characters,
and goes through a table of bindings, each of which names a variable to set. There is a version
for `char` and one for `wchar_t`; they are one function over the type of a character.

`config_path_inside_iff` : the path, and that it stays in its buffer exactly if the directory has
248 characters at most, which a file name of ten characters ensures. `config_load_last` : every
variable gets the value of its last binding in front of the end of the table, and the others keep
theirs.
-/

set_option linter.unusedSectionVars false

open Traced

namespace DhcpToolset

namespace Config

variable {χ : Type} [DecidableEq χ]

/-- The characters that the code itself has : the backslash, and the name that it appends. -/
structure Alphabet (χ : Type) where
  backslash : χ
  /-- `config.ini`. -/
  name : List χ
  length_name : name.length = 10

/-- `MAX_PATH`. -/
def maxPath : ℕ := 260

/-! ## The path -/

/-- The loop from the end of the path, with the elements that it accesses. The text is what stands
before the `NUL`, so that a `NUL` at `i` cuts it there. -/
def stripName (backslash : χ) (path : List χ) : ℕ → Traced ℕ (List χ)
  | 0 => pure path
  | i + 1 => do
    touch [i]
    if path[i]? = some backslash then do
      touch [i]
      pure (path.take i)
    else stripName backslash path i

/-- `strcat`, with the elements of its first argument that it accesses. -/
def strcat (path text : List χ) : Traced ℕ (List χ) := do
  touch (List.range (path.length + 1))
  touch ((List.range (text.length + 1)).map (path.length + ·))
  pure (path ++ text)

/-- The path of the file, `path` being what `GetModuleFileName` left in the buffer. -/
def configPath (A : Alphabet χ) (path : List χ) : Traced ℕ (List χ) := do
  -- `strlen`
  touch (List.range (path.length + 1))
  let path ← stripName A.backslash path path.length
  strcat path (A.backslash :: A.name)

/-- A path is a directory and the name of a file in it, or a name alone. -/
inductive Splits (backslash : χ) : List χ → List χ → List χ → Prop where
  | dir {dir name} : backslash ∉ name → Splits backslash (dir ++ backslash :: name) dir name
  | none {name} : backslash ∉ name → Splits backslash name name []

theorem val_stripName_succ {backslash : χ} {path : List χ} {i : ℕ}
    (h : path[i]? ≠ some backslash) :
    (stripName backslash path (i + 1)).val = (stripName backslash path i).val := by
  simp [stripName, h]

/-- The loop cuts the path at the last backslash below `i`. -/
theorem val_stripName {backslash : χ} {path : List χ} {j : ℕ} (hat : path[j]? = some backslash) :
    ∀ {i : ℕ}, j < i → (∀ k, j < k → k < i → path[k]? ≠ some backslash) →
      (stripName backslash path i).val = path.take j
  | i + 1, hj, hmax => by
    rcases Nat.lt_succ_iff_lt_or_eq.mp hj with hlt | rfl
    · rw [val_stripName_succ (hmax i hlt i.lt_succ_self)]
      exact val_stripName hat hlt fun k hk hk' => hmax k hk (by omega)
    · simp [stripName, hat]

theorem val_stripName_of_none {backslash : χ} {path : List χ} :
    ∀ {i : ℕ}, (∀ k < i, path[k]? ≠ some backslash) → (stripName backslash path i).val = path
  | 0, _ => rfl
  | i + 1, h => by
    rw [val_stripName_succ (h i i.lt_succ_self)]
    exact val_stripName_of_none fun k hk => h k (by omega)

theorem Splits.stripName {backslash : χ} {path dir name : List χ}
    (h : Splits backslash path dir name) :
    (stripName backslash path path.length).val = dir := by
  cases h with
  | @dir _ name hno =>
    have hat : (dir ++ backslash :: name)[dir.length]? = some backslash := by simp
    rw [val_stripName hat (by simp) fun k hk hk' heq => ?_, List.take_left]
    rw [List.getElem?_append_right hk.le, List.getElem?_cons] at heq
    rw [if_neg (by omega)] at heq
    exact hno (List.mem_of_getElem? heq)
  | none hno => exact val_stripName_of_none fun k _ heq => hno (List.mem_of_getElem? heq)

/-- Every path splits, the name being what follows the last backslash. -/
theorem exists_splits (backslash : χ) : ∀ path : List χ, ∃ dir name, Splits backslash path dir name
  | [] => ⟨[], [], .none (by simp)⟩
  | c :: path => by
    obtain ⟨dir, name, h⟩ := exists_splits backslash path
    cases h with
    | @dir _ name hno =>
      have hcons : Splits backslash (c :: dir ++ backslash :: name) (c :: dir) name := .dir hno
      exact ⟨c :: dir, name, hcons⟩
    | none hno =>
      by_cases hc : c = backslash
      · have hhead : Splits backslash ([] ++ backslash :: path) [] path := .dir hno
        exact ⟨[], path, hc ▸ hhead⟩
      · exact ⟨c :: path, [], .none (by simp [Ne.symm hc, hno])⟩

theorem uses_stripName_lt (backslash : χ) (path : List χ) : ∀ (i : ℕ),
    ∀ k ∈ (stripName backslash path i).uses, k < i
  | 0, k, hk => by simp [stripName] at hk
  | i + 1, k, hk => by
    simp only [stripName, uses_bind, uses_touch] at hk
    split at hk
    · simp at hk
      omega
    · rcases List.mem_append.mp hk with hk | hk
      · simp at hk
        omega
      · have := uses_stripName_lt backslash path i k hk
        omega

/-- The file is in the directory of the module. A path that fits the buffer stays in it exactly if
the directory has 248 characters at most. -/
theorem config_path_inside_iff (A : Alphabet χ) (path : List χ) (hpath : path.length < maxPath) :
    ∃ dir name, Splits A.backslash path dir name ∧
      (configPath A path).val = dir ++ A.backslash :: A.name ∧
      ((configPath A path).All (· < maxPath) ↔ dir.length ≤ 248) ∧
      (10 ≤ name.length → (configPath A path).All (· < maxPath)) := by
  obtain ⟨dir, name, h⟩ := exists_splits A.backslash path
  have hstrip := h.stripName
  have hiff : (configPath A path).All (· < maxPath) ↔ dir.length ≤ 248 := by
    have hloop : (stripName A.backslash path path.length).All (· < maxPath) := fun k hk =>
      (uses_stripName_lt _ _ _ k hk).trans hpath
    simp only [configPath, strcat, all_bind, all_touch, all_pure, hstrip, List.length_cons,
      A.length_name, List.mem_range, List.mem_map, forall_exists_index, and_imp, maxPath] at hpath ⊢
    constructor
    · rintro ⟨-, -, -, hcopy, -⟩
      have := hcopy (dir.length + 11) 11 (by omega) rfl
      omega
    · intro hdir
      refine ⟨fun k hk => by omega, hloop, fun k hk => by omega, fun k i hi hk => by omega, trivial⟩
  refine ⟨dir, name, h, by simp [configPath, strcat, hstrip], hiff, fun hname => hiff.mpr ?_⟩
  cases h with
  | dir _ =>
    simp only [List.length_append, List.length_cons, maxPath] at hpath
    omega
  | none _ => simp at hname

/-- The characters of `char`. -/
def ansi : Alphabet UInt8 where
  backslash := 92
  name := CText.ofString "config.ini"
  length_name := by decide

/-- The characters of `wchar_t`. -/
def wide : Alphabet UInt16 where
  backslash := 92
  name := (CText.ofString "config.ini").map UInt8.toUInt16
  length_name := by decide

/-- A module in the root of a drive. -/
theorem config_path_inside_iff_root : ∃ dir name,
    Splits ansi.backslash (CText.ofString "C:\\Monitor.exe") dir name ∧
    (configPath ansi (CText.ofString "C:\\Monitor.exe")).val = dir ++ ansi.backslash :: ansi.name ∧
    (10 ≤ name.length →
      (configPath ansi (CText.ofString "C:\\Monitor.exe")).All (· < maxPath)) := by
  obtain ⟨dir, name, h, hval, -, hinside⟩ :=
    config_path_inside_iff ansi (CText.ofString "C:\\Monitor.exe") (by decide)
  exact ⟨dir, name, h, hval, hinside⟩

/-! ## The bindings -/

/-- `type`, with the member of `def` that it selects. The `switch` has no case for other types. -/
inductive Kind (χ : Type) where
  | string (dflt : Option (List χ))
  | int (dflt : Int32)
  | other (type : ℤ)

/-- `CONFIG_BINDING`. `val` is the address of the variable, and the table ends at a binding whose
section is `NULL`. -/
structure Binding (χ : Type) where
  sect : Option (List χ)
  key : List χ
  val : ℕ
  kind : Kind χ

/-- What a variable holds. -/
inductive Value (χ : Type) where
  | string (s : Option (List χ))
  | int (n : Int32)
  deriving DecidableEq

/-- `GetPrivateProfileString` and `GetPrivateProfileInt` : the text or the number for a section and
a key, with its default, in the file at a path. -/
structure Profile (χ : Type) where
  getString : List χ → List χ → Option (List χ) → List χ → List χ
  getInt : List χ → List χ → Int32 → List χ → Int32

/-- What the `switch` stores, if anything. -/
def Profile.value (P : Profile χ) (path sect : List χ) (b : Binding χ) : Option (Value χ) :=
  match b.kind with
  | .string dflt =>
    let buffer := P.getString sect b.key dflt path
    some (.string (if buffer = [] ∧ dflt = none then none else some buffer))
  | .int dflt => some (.int (P.getInt sect b.key dflt path))
  | .other _ => none

/-- The loop over the table. Behind a table without an end the loop reads on, and there is no
result. -/
def loadBindings (P : Profile χ) (path : List χ) :
    List (Binding χ) → (ℕ → Value χ) → Option (ℕ → Value χ)
  | [], _ => none
  | b :: bs, vars =>
    match b.sect with
    | none => some vars
    | some sect =>
      match P.value path sect b with
      | none => loadBindings P path bs vars
      | some v => loadBindings P path bs (Function.update vars b.val v)

/-- `config_load`, `path` being what `GetModuleFileName` left. -/
def configLoad (A : Alphabet χ) (P : Profile χ) (path : List χ) (bindings : List (Binding χ))
    (vars : ℕ → Value χ) : Option (ℕ → Value χ) :=
  loadBindings P (configPath A path).val bindings vars

/-- `config_load_a`. -/
def configLoadA : Profile UInt8 → List UInt8 → List (Binding UInt8) → (ℕ → Value UInt8) →
    Option (ℕ → Value UInt8) :=
  configLoad ansi

/-- `config_load_w`. -/
def configLoadW : Profile UInt16 → List UInt16 → List (Binding UInt16) → (ℕ → Value UInt16) →
    Option (ℕ → Value UInt16) :=
  configLoad wide

/-- What a binding stores in the variable at `x`. -/
def Profile.assigns (P : Profile χ) (path : List χ) (x : ℕ) (b : Binding χ) : Option (Value χ) :=
  if b.val = x then b.sect.bind fun sect => P.value path sect b else none

theorem loadBindings_append (P : Profile χ) (path : List χ) {e : Binding χ} (he : e.sect = none)
    (rest : List (Binding χ)) : ∀ {bs : List (Binding χ)} (vars : ℕ → Value χ),
      (∀ b ∈ bs, b.sect.isSome = true) →
        ∃ vars', loadBindings P path (bs ++ e :: rest) vars = some vars' ∧
          ∀ x, vars' x = (bs.filterMap (P.assigns path x)).getLast?.getD (vars x)
  | [], vars, _ => ⟨vars, by simp [loadBindings, he], by simp⟩
  | b :: bs, vars, hbs => by
    obtain ⟨sect, hsect⟩ := Option.isSome_iff_exists.mp (hbs b (by simp))
    have ih (vars : ℕ → Value χ) := loadBindings_append P path he rest vars
      fun c hc => hbs c (List.mem_cons_of_mem b hc)
    cases hvalue : P.value path sect b with
    | none =>
      obtain ⟨vars', hload, hlast⟩ := ih vars
      refine ⟨vars', by simpa [loadBindings, hsect, hvalue] using hload, fun x => ?_⟩
      have hnone : P.assigns path x b = none := by simp [Profile.assigns, hsect, hvalue]
      rw [hlast x, List.filterMap_cons_none hnone]
    | some v =>
      obtain ⟨vars', hload, hlast⟩ := ih (Function.update vars b.val v)
      refine ⟨vars', by simpa [loadBindings, hsect, hvalue] using hload, fun x => ?_⟩
      rw [hlast x]
      by_cases hx : b.val = x
      · have hsome : P.assigns path x b = some v := by simp [Profile.assigns, hsect, hvalue, hx]
        rw [List.filterMap_cons_some hsome, List.getLast?_cons, ← hx, Function.update_self]
        rfl
      · have hnone : P.assigns path x b = none := by simp [Profile.assigns, hx]
        rw [List.filterMap_cons_none hnone, Function.update_of_ne (Ne.symm hx)]

/-- Every variable gets the value of its last binding before the end of the table, which is looked
up in `config.ini` in the directory of the module. -/
theorem config_load_last (A : Alphabet χ) (P : Profile χ) (path : List χ) (vars : ℕ → Value χ)
    (bs rest : List (Binding χ)) (e : Binding χ) (hbs : ∀ b ∈ bs, b.sect.isSome = true)
    (he : e.sect = none) : ∃ vars' dir name, Splits A.backslash path dir name ∧
      configLoad A P path (bs ++ e :: rest) vars = some vars' ∧
      ∀ x, vars' x =
        (bs.filterMap (P.assigns (dir ++ A.backslash :: A.name) x)).getLast?.getD (vars x) := by
  obtain ⟨dir, name, h⟩ := exists_splits A.backslash path
  have hpath : (configPath A path).val = dir ++ A.backslash :: A.name := by
    simp [configPath, strcat, h.stripName]
  obtain ⟨vars', hload, hlast⟩ := loadBindings_append P (configPath A path).val he rest vars hbs
  exact ⟨vars', dir, name, h, hload, hpath ▸ hlast⟩

/-- The table of the Monitor, with its variables in their order. -/
def bindings : List (Binding UInt8) :=
  let db (key : String) (val : ℕ) (kind : Kind UInt8) : Binding UInt8 :=
    ⟨some (CText.ofString "db"), CText.ofString key, val, kind⟩
  [db "host" 0 (.string none), db "user" 1 (.string none), db "pass" 2 (.string none),
    db "name" 3 (.string none), db "port" 4 (.int 3306)]

/-- A file without entries : the strings are `NULL`, and the port is its default. -/
theorem config_load_last_empty : ∃ vars',
    configLoadA ⟨fun _ _ d _ => d.getD [], fun _ _ d _ => d⟩ (CText.ofString "C:\\Monitor.exe")
      (bindings ++ [⟨none, [], 0, .string none⟩]) (fun _ => .int 0) = some vars' ∧
    vars' 0 = .string none ∧ vars' 4 = .int 3306 := by
  obtain ⟨vars', dir, name, -, hload, hlast⟩ := config_load_last ansi
    ⟨fun _ _ d _ => d.getD [], fun _ _ d _ => d⟩ (CText.ofString "C:\\Monitor.exe")
    (fun _ => .int 0) bindings [] ⟨none, [], 0, .string none⟩ (by decide) rfl
  exact ⟨vars', hload, (hlast 0).trans rfl, (hlast 4).trans rfl⟩

end Config

end DhcpToolset
