import Straightline.Target.Error

/-!
Targets: what the platform decides about symbols, the entry point, registers and runtime calls.
-/
namespace Straightline

/-- Calls that the runtime answers: source names with the symbols behind them, names ascending. -/
structure Builtins where
  entries : List (String × String) := []
  sorted : entries.Pairwise (·.1 < ·.1) := by decide
deriving DecidableEq

namespace Builtins

def insertEntry (name symbol : String) : List (String × String) → List (String × String)
  | [] => [(name, symbol)]
  | e :: rest =>
    if name < e.1 then (name, symbol) :: e :: rest
    else if name = e.1 then (name, symbol) :: rest
    else e :: insertEntry name symbol rest

theorem mem_insertEntry {name symbol : String} {l : List (String × String)} {e : String × String}
    (h : e ∈ insertEntry name symbol l) : e = (name, symbol) ∨ e ∈ l := by
  induction l with
  | nil => simpa [insertEntry] using h
  | cons a rest ih =>
    unfold insertEntry at h
    split at h
    · simpa using h
    · split at h
      · rcases List.mem_cons.1 h with h | h
        · exact .inl h
        · exact .inr (List.mem_cons_of_mem _ h)
      · rcases List.mem_cons.1 h with h | h
        · exact .inr (h ▸ List.mem_cons_self)
        · exact (ih h).imp_right (List.mem_cons_of_mem _)

theorem pairwise_insertEntry (name symbol : String) {l : List (String × String)}
    (h : l.Pairwise (·.1 < ·.1)) : (insertEntry name symbol l).Pairwise (·.1 < ·.1) := by
  induction l with
  | nil => simp [insertEntry]
  | cons a rest ih =>
    obtain ⟨ha, hrest⟩ := List.pairwise_cons.1 h
    unfold insertEntry
    split
    next hlt =>
      refine List.pairwise_cons.2 ⟨fun e he => ?_, h⟩
      rcases List.mem_cons.1 he with rfl | he
      · exact hlt
      · exact String.lt_trans hlt (ha e he)
    next hlt =>
      split
      next heq => exact List.pairwise_cons.2 ⟨fun e he => heq ▸ ha e he, hrest⟩
      next hne =>
        refine List.pairwise_cons.2 ⟨fun e he => ?_, ih hrest⟩
        rcases mem_insertEntry he with rfl | he
        · have hle : a.1 ≤ name := String.not_lt.1 hlt
          exact Decidable.byContradiction fun hn =>
            hne (String.le_antisymm (String.not_lt.1 hn) hle)
        · exact ha e he

/-- Sets the symbol of a name. -/
def insert (b : Builtins) (name symbol : String) : Builtins :=
  ⟨insertEntry name symbol b.entries, pairwise_insertEntry name symbol b.sorted⟩

def find? (b : Builtins) (name : String) : Option String := b.entries.lookup name

theorem lookup_cons_eq (m k v : String) (l : List (String × String)) :
    ((k, v) :: l).lookup m = if m = k then some v else l.lookup m := by
  by_cases h : m = k
  · simp [h]
  · rw [List.lookup_cons, beq_false_of_ne h, if_neg h]

theorem lookup_insertEntry (name symbol m : String) (l : List (String × String)) :
    (insertEntry name symbol l).lookup m = if m = name then some symbol else l.lookup m := by
  induction l with
  | nil => exact lookup_cons_eq m name symbol []
  | cons e rest ih =>
    obtain ⟨k, v⟩ := e
    unfold insertEntry
    split
    · exact lookup_cons_eq ..
    · split
      next h =>
        subst h
        by_cases hm : m = name <;> simp [lookup_cons_eq, hm]
      next h =>
        rw [lookup_cons_eq, lookup_cons_eq, ih]
        by_cases hm : m = k
        · have hn : k ≠ name := fun he => h he.symm
          simp [hm, hn]
        · simp [hm]

@[simp] theorem find?_insert (b : Builtins) (name symbol m : String) :
    (b.insert name symbol).find? m = if m = name then some symbol else b.find? m :=
  lookup_insertEntry name symbol m b.entries

end Builtins

inductive Architecture
  | arm64
deriving DecidableEq, Repr

structure Target where
  name : String
  displayName : String
  architecture : Architecture
  /-- What the object format puts before every symbol. -/
  symbolPrefix : String
  /-- The function at which the program starts. -/
  entryPoint : String
  /-- How many registers may carry arguments. -/
  argumentRegisters : Nat
  builtins : Builtins
deriving DecidableEq

namespace Target

def darwin : Target where
  name := "darwin-arm64"
  displayName := "macOS on ARM64"
  architecture := .arm64
  symbolPrefix := "_"
  entryPoint := "main"
  argumentRegisters := 4
  builtins := { entries := [("print", "navi_print_int")] }

def linux : Target :=
  { darwin with name := "linux-arm64", displayName := "Linux on ARM64", symbolPrefix := "" }

def isEntryPoint (t : Target) (name : String) : Bool := t.entryPoint = name

/-- The symbol that a call of `name` reaches; a name that is no builtin stands for itself. -/
def callee (t : Target) (name : String) : String := (t.builtins.find? name).getD name

def hasTwoDots : List Char → Bool
  | '.' :: '.' :: _ => true
  | _ :: rest => hasTwoDots rest
  | [] => false

/-- The name could be mistaken for a path. -/
def looksLikePath (name : List Char) : Bool :=
  name.head? = some '.' || name.contains '/' || name.contains '\\' || hasTwoDots name

def ofName (name : String) : Except Error Target :=
  if looksLikePath name.toList then .error (.invalidName name)
  else if name = "darwin-arm64" ∨ name = "macos-arm64" then .ok darwin
  else if name = "linux-arm64" ∨ name = "linux-aarch64" then .ok linux
  else .error (.unknownName name)

end Target

end Straightline
