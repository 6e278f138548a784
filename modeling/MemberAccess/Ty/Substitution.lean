import MemberAccess.Ty.Basic

/-!
Substitutions of types for type parameters. The entries are kept in the order of the parameters,
so that substitutions that map the same parameters to the same types are equal.
-/
namespace MemberAccess

structure Substitution where
  entries : List (ParamId × Ty)
  sorted : entries.Pairwise fun a b => a.1.val < b.1.val
  deriving DecidableEq

namespace Substitution

def empty : Substitution := ⟨[], .nil⟩

def isEmpty (s : Substitution) : Bool := s.entries.isEmpty

def size (s : Substitution) : Nat := s.entries.length

def get? (s : Substitution) (p : ParamId) : Option Ty := s.entries.lookup p

def contains (s : Substitution) (p : ParamId) : Bool := (s.get? p).isSome

def types (s : Substitution) : List Ty := s.entries.map (·.2)

def isClosed (s : Substitution) : Bool := s.types.all Ty.isClosed

def insertEntry (p : ParamId) (t : Ty) : List (ParamId × Ty) → List (ParamId × Ty)
  | [] => [(p, t)]
  | (q, u) :: rest =>
    if p.val < q.val then (p, t) :: (q, u) :: rest
    else if p.val = q.val then (p, t) :: rest
    else (q, u) :: insertEntry p t rest

theorem mem_insertEntry {p : ParamId} {t : Ty} {e : ParamId × Ty} {es : List (ParamId × Ty)}
    (h : e ∈ insertEntry p t es) : e = (p, t) ∨ e ∈ es := by
  induction es with
  | nil => simpa [insertEntry] using h
  | cons head rest ih =>
    obtain ⟨q, u⟩ := head
    grind [insertEntry]

theorem sorted_insertEntry (p : ParamId) (t : Ty) {es : List (ParamId × Ty)}
    (h : es.Pairwise fun a b => a.1.val < b.1.val) :
    (insertEntry p t es).Pairwise fun a b => a.1.val < b.1.val := by
  induction es with
  | nil => simp [insertEntry]
  | cons head rest ih =>
    obtain ⟨q, u⟩ := head
    obtain ⟨below, tail⟩ := List.pairwise_cons.1 h
    unfold insertEntry
    split
    · next less =>
      refine List.pairwise_cons.2 ⟨fun e he => ?_, h⟩
      rcases List.mem_cons.1 he with rfl | he
      · exact less
      · exact Nat.lt_trans less (below e he)
    · split
      · next same => exact List.pairwise_cons.2 ⟨fun e he => by simpa [same] using below e he, tail⟩
      · next notLess notSame =>
        refine List.pairwise_cons.2 ⟨fun e he => ?_, ih tail⟩
        rcases mem_insertEntry he with rfl | he
        · simp only; omega
        · exact below e he

def insert (s : Substitution) (p : ParamId) (t : Ty) : Substitution :=
  ⟨insertEntry p t s.entries, sorted_insertEntry p t s.sorted⟩

def insertAll (s : Substitution) (es : List (ParamId × Ty)) : Substitution :=
  es.foldl (fun s e => s.insert e.1 e.2) s

def ofList (es : List (ParamId × Ty)) : Substitution := empty.insertAll es

def mapTypes (s : Substitution) (f : Ty → Ty) : Substitution :=
  ⟨s.entries.map fun e => (e.1, f e.2), by
    simpa [List.pairwise_map] using s.sorted⟩

end Substitution

/-- The empty substitution leaves even those types alone that are not in normal form. -/
def Ty.substitute (t : Ty) (s : Substitution) : Ty :=
  if s.isEmpty then t else t.replace s.get?

/-- First `s`, then `r`. -/
def Substitution.compose (s r : Substitution) : Substitution :=
  (s.mapTypes (·.substitute r)).insertAll (r.entries.filter fun e => !s.contains e.1)

end MemberAccess
