import MemberAccess.Fault

/-!
Tables: entries are referred to by their index, so that a type parameter can occur in its own
bound and a class in its own supertype.
-/
namespace MemberAccess

structure Index (k : Kind) where
  val : Nat
  deriving DecidableEq

instance : LawfulBEq (Index k) := inferInstance

abbrev TypeId := Index .type
abbrev ParamId := Index .param
abbrev DeclId := Index .decl
abbrev MemberId := Index .member
abbrev LibraryId := Index .library

namespace Index

def ofNat (k : Kind) (n : Nat) : Except Fault (Index k) :=
  if n < k.capacity then .ok ⟨n⟩ else .error (.indexOverflow k)

def text (i : Index k) : String := toString i.val ++ k.tag

end Index

/-- A table has an index for each of its entries. -/
structure Table (k : Kind) (α : Type) where
  entries : Array α
  fits : entries.size ≤ k.capacity

namespace Table

def empty : Table k α := ⟨#[], Nat.zero_le _⟩

def singleton (x : α) : Table k α := ⟨#[x], k.capacity_pos⟩

def ofList (xs : List α) (fits : xs.length ≤ k.capacity := by decide) : Table k α :=
  ⟨xs.toArray, fits⟩

def adopt (xs : List α) : Except Fault (Table k α) :=
  if fits : xs.length ≤ k.capacity then .ok (.ofList xs fits) else .error (.indexOverflow k)

def size (t : Table k α) : Nat := t.entries.size

def get? (t : Table k α) (i : Index k) : Option α := t.entries[i.val]?

def fetch (t : Table k α) (i : Index k) : Except Fault α :=
  match t.get? i with
  | some x => .ok x
  | none => .error (.outOfRange t.size i.val)

def next (t : Table k α) : Except Fault (Index k) := Index.ofNat k t.size

def insert (t : Table k α) (x : α) : Except Fault (Index k × Table k α) :=
  if room : t.size < k.capacity then
    .ok (⟨t.size⟩, ⟨t.entries.push x, by rw [Array.size_push]; exact room⟩)
  else .error (.indexOverflow k)

def set (t : Table k α) (i : Index k) (x : α) : Except Fault (Table k α) := do
  let _ ← t.fetch i
  pure ⟨t.entries.setIfInBounds i.val x, by simpa using t.fits⟩

def modify (t : Table k α) (i : Index k) (f : α → α) : Except Fault (Table k α) := do
  t.set i (f (← t.fetch i))

def indices (t : Table k α) : List (Index k) := (List.range t.size).map .mk

theorem ofNat_of_mem_indices {t : Table k α} {i : Index k} (mem : i ∈ t.indices) :
    Index.ofNat k i.val = .ok i := by
  obtain ⟨n, inRange, rfl⟩ := List.mem_map.1 mem
  exact if_pos (Nat.lt_of_lt_of_le (List.mem_range.1 inRange) t.fits)

def toList (t : Table k α) : List (Index k × α) := t.indices.zip t.entries.toList

/-- One line, as in {0p: 5, 1p: -6}. -/
def text (t : Table k α) (entry : α → String) : String :=
  "\x7b" ++ ", ".intercalate (t.toList.map fun (i, x) => i.text ++ ": " ++ entry x) ++ "\x7d"

def paragraph (t : Table k α) (entry : α → String) : String :=
  if t.size = 0 then "\x7b\x7d"
  else
    let lines := t.toList.map fun (i, x) => "    " ++ i.text ++ ": " ++ entry x ++ ",\n"
    "\x7b\n" ++ String.join lines ++ "\x7d"

end Table

end MemberAccess
