/-!
Rosters: things of one kind under names, in ascending order of the names, so that rosters that agree
on every name are equal values.
-/

namespace TorrentEngine

/-- The name of a peer: its address and port. -/
abbrev PeerId := String

/-- Things under names, each name once, in ascending order. -/
structure Roster (α : Type) where
  entries : List (PeerId × α) := []
  ascending : entries.Pairwise (fun a b => a.1 < b.1) := by exact List.Pairwise.nil

namespace Roster

variable {α : Type}

def empty : Roster α := {}

def ids (r : Roster α) : List PeerId := r.entries.map (·.1)

def values (r : Roster α) : List α := r.entries.map (·.2)

def find? (r : Roster α) (id : PeerId) : Option α :=
  (r.entries.find? fun e => e.1 = id).map (·.2)

/-- Entries with `x` under `id` at its place. -/
def insertEntry (id : PeerId) (x : α) : List (PeerId × α) → List (PeerId × α)
  | [] => [(id, x)]
  | e :: rest =>
    if id = e.1 then (id, x) :: rest
    else if id < e.1 then (id, x) :: e :: rest
    else e :: insertEntry id x rest

theorem mem_insertEntry {id : PeerId} {x : α} {e : PeerId × α} {l : List (PeerId × α)}
    (h : e ∈ insertEntry id x l) : e.1 = id ∨ e ∈ l := by
  induction l with
  | nil => simp_all [insertEntry]
  | cons a rest ih =>
    simp only [insertEntry] at h
    split at h
    · rcases List.mem_cons.mp h with rfl | h
      · exact .inl rfl
      · exact .inr (List.mem_cons_of_mem _ h)
    · split at h
      · rcases List.mem_cons.mp h with rfl | h
        · exact .inl rfl
        · exact .inr h
      · rcases List.mem_cons.mp h with rfl | h
        · exact .inr List.mem_cons_self
        · exact (ih h).imp (fun h => h) (List.mem_cons_of_mem _)

theorem insertEntry_ascending {id : PeerId} {x : α} {l : List (PeerId × α)}
    (h : l.Pairwise (fun a b => a.1 < b.1)) :
    (insertEntry id x l).Pairwise (fun a b => a.1 < b.1) := by
  induction l with
  | nil => simp [insertEntry]
  | cons a rest ih =>
    have ha {b : PeerId × α} (hb : b ∈ rest) : a.1 < b.1 := List.rel_of_pairwise_cons h hb
    simp only [insertEntry]
    split
    · next heq =>
      refine List.Pairwise.cons ?_ (List.Pairwise.of_cons h)
      intro b hb
      exact heq ▸ ha hb
    · split
      · next hlt =>
        refine List.Pairwise.cons ?_ h
        intro b hb
        rcases List.mem_cons.mp hb with rfl | hb
        · exact hlt
        · exact String.lt_trans hlt (ha hb)
      · next hne hnlt =>
        refine List.Pairwise.cons ?_ (ih (List.Pairwise.of_cons h))
        intro b hb
        rcases mem_insertEntry hb with hb | hb
        · have : a.1 < id := by
            rcases Std.lt_trichotomy id a.1 with h | h | h
            · exact absurd h hnlt
            · exact absurd h hne
            · exact h
          exact hb ▸ this
        · exact ha hb

/-- The roster with `x` under a name, in place of what stood there. -/
def insert (r : Roster α) (id : PeerId) (x : α) : Roster α :=
  ⟨insertEntry id x r.entries, insertEntry_ascending r.ascending⟩

def erase (r : Roster α) (id : PeerId) : Roster α :=
  ⟨r.entries.filter fun e => e.1 ≠ id, r.ascending.filter _⟩

theorem map_ascending {β : Type} (f : PeerId → α → β) {l : List (PeerId × α)}
    (h : l.Pairwise (fun a b => a.1 < b.1)) :
    (l.map fun e => (e.1, f e.1 e.2)).Pairwise (fun a b => a.1 < b.1) :=
  List.pairwise_map.mpr h

def map {β : Type} (r : Roster α) (f : PeerId → α → β) : Roster β :=
  ⟨r.entries.map fun e => (e.1, f e.1 e.2), map_ascending f r.ascending⟩

/-- The roster with what stands under a name, if anything does, replaced. -/
def update (r : Roster α) (id : PeerId) (f : α → α) : Roster α :=
  r.map fun k x => if k = id then f x else x

end Roster

end TorrentEngine
