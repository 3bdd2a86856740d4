import Mathlib.Data.Multiset.AddSub
import Mathlib.Data.Multiset.Bind
import Mathlib.Data.Multiset.UnionInter
import TorrentEngine.Download

/-!
The blocks that connected peers have been asked for, as a bag of places. Each change of the roster
is described by what it does to the bag: one peer is singled out, and the others keep theirs.
-/

namespace TorrentEngine

/-- A place of a block: its piece, and its place in the piece. -/
abbrev BlockPlace := Nat × Nat

/-- The place of the block that a request is for. -/
def Request.place (r : Request) : BlockPlace := (r.piece, r.block)

theorem Request.isFor_iff {r : Request} {i b : Nat} : r.isFor i b = true ↔ r.place = (i, b) := by
  simp [isFor, place]

/-- The places that a peer has been asked for. -/
def Peer.claims (p : Peer) : Multiset BlockPlace := (p.pending.map Request.place : List BlockPlace)

namespace Roster

variable {α : Type} {r : Roster α} {id : PeerId} {x : α}

theorem find?_eq_some : r.find? id = some x ↔ (id, x) ∈ r.entries := by
  constructor
  · intro h
    obtain ⟨e, he, rfl⟩ := Option.map_eq_some_iff.mp h
    have hId : e.1 = id := by simpa using List.find?_some he
    rw [← hId]
    exact List.mem_of_find?_eq_some he
  · intro h
    have hUnique : ∀ e ∈ r.entries, e.1 = id → e = (id, x) := by
      intro e he hId
      by_contra hne
      have hRel := r.ascending.imp (S := fun a b => a.1 ≠ b.1) fun hlt heq =>
        String.lt_irrefl _ (heq ▸ hlt)
      exact hne (List.inj_on_of_nodup_map (List.pairwise_map.mpr hRel) he h hId)
    cases hFind : r.entries.find? fun e => e.1 = id with
    | none => simpa using List.find?_eq_none.mp hFind _ h
    | some e =>
      have hEntry := hUnique e (List.mem_of_find?_eq_some hFind) (by
        simpa using List.find?_some hFind)
      rw [find?, hFind, hEntry]
      rfl

theorem ne_of_find?_none (h : r.find? id = none) : ∀ e ∈ r.entries, e.1 ≠ id := by
  rintro e he rfl
  rw [find?_eq_some.mpr he] at h
  cases h

theorem filter_others {l : List (PeerId × α)} (h : ∀ e ∈ l, e.1 ≠ id) :
    l.filter (fun e => e.1 ≠ id) = l :=
  List.filter_eq_self.mpr fun e he => by simpa using h e he

theorem map_others {l : List (PeerId × α)} (h : ∀ e ∈ l, e.1 ≠ id) (f : α → α) :
    l.map (fun e => (e.1, if e.1 = id then f e.2 else e.2)) = l := by
  calc l.map (fun e => (e.1, if e.1 = id then f e.2 else e.2))
      = l.map (fun e => e) := List.map_congr_left fun e he => by rw [if_neg (h e he)]
    _ = l := List.map_id' l

theorem entries_erase_of_find?_none (h : r.find? id = none) : (r.erase id).entries = r.entries :=
  filter_others (ne_of_find?_none h)

/-- What stands under a name, and the others. -/
theorem coe_entries_of_find? (h : r.find? id = some x) :
    (r.entries : Multiset (PeerId × α)) = (id, x) ::ₘ ((r.erase id).entries : Multiset _) := by
  obtain ⟨before, after, hSplit⟩ := List.append_of_mem (find?_eq_some.mp h)
  have hAscending := r.ascending
  rw [hSplit, List.pairwise_append] at hAscending
  obtain ⟨_, hTail, hCross⟩ := hAscending
  have hBefore : ∀ e ∈ before, e.1 ≠ id := fun e he =>
    String.ne_of_lt (hCross e he (id, x) List.mem_cons_self)
  have hAfter : ∀ e ∈ after, e.1 ≠ id := fun e he =>
    (String.ne_of_lt (List.rel_of_pairwise_cons hTail he)).symm
  have hErased : (r.erase id).entries = before ++ after := by
    change r.entries.filter (fun e => e.1 ≠ id) = before ++ after
    rw [hSplit, List.filter_append, filter_others hBefore, List.filter_cons_of_neg (by simp),
      filter_others hAfter]
  rw [hErased, hSplit, Multiset.cons_coe]
  exact Multiset.coe_eq_coe.mpr List.perm_middle

theorem insertEntry_perm {l : List (PeerId × α)} (h : l.Pairwise (fun a b => a.1 < b.1)) :
    (insertEntry id x l).Perm ((id, x) :: l.filter fun e => e.1 ≠ id) := by
  induction l with
  | nil => exact .refl _
  | cons e rest ih =>
    have hTail {a : PeerId × α} (ha : a ∈ rest) : e.1 < a.1 := List.rel_of_pairwise_cons h ha
    simp only [insertEntry]
    split
    · next heq =>
      subst heq
      rw [List.filter_cons_of_neg (by simp), filter_others]
      exact fun a ha => (String.ne_of_lt (hTail ha)).symm
    · next hne =>
      split
      · next hlt =>
        rw [filter_others]
        intro a ha
        rcases List.mem_cons.mp ha with rfl | ha
        · exact (String.ne_of_lt hlt).symm
        · exact (String.ne_of_lt (String.lt_trans hlt (hTail ha))).symm
      · rw [List.filter_cons_of_pos (by simpa using Ne.symm hne)]
        exact ((ih (List.Pairwise.of_cons h)).cons e).trans (.swap ..)

theorem coe_entries_insert (r : Roster α) (id : PeerId) (x : α) :
    ((r.insert id x).entries : Multiset (PeerId × α)) =
      (id, x) ::ₘ ((r.erase id).entries : Multiset _) :=
  Multiset.coe_eq_coe.mpr (insertEntry_perm r.ascending)

theorem coe_entries_update (h : r.find? id = some x) (f : α → α) :
    ((r.update id f).entries : Multiset (PeerId × α)) =
      (id, f x) ::ₘ ((r.erase id).entries : Multiset _) := by
  have hOthers : ∀ e ∈ (r.erase id).entries, e.1 ≠ id := fun e he => by
    simpa using (List.mem_filter.mp he).2
  rw [update, map, ← Multiset.map_coe, coe_entries_of_find? h, Multiset.map_cons, if_pos rfl,
    Multiset.map_coe, map_others hOthers]

theorem entries_update_of_find?_none (h : r.find? id = none) (f : α → α) :
    (r.update id f).entries = r.entries :=
  map_others (ne_of_find?_none h) f

/-! ### Looking up -/

theorem mem_entries_erase {e : PeerId × α} :
    e ∈ (r.erase id).entries ↔ e ∈ r.entries ∧ e.1 ≠ id := by
  simp [erase]

theorem find?_erase (r : Roster α) (id k : PeerId) :
    (r.erase id).find? k = if k = id then none else r.find? k := by
  ext y
  rw [find?_eq_some, mem_entries_erase]
  by_cases hk : k = id <;> simp [hk, find?_eq_some]

theorem find?_insert (r : Roster α) (id k : PeerId) (x : α) :
    (r.insert id x).find? k = if k = id then some x else r.find? k := by
  ext y
  have hMem : (k, y) ∈ (r.insert id x).entries ↔
      (k, y) = (id, x) ∨ (k, y) ∈ (r.erase id).entries := by
    rw [← Multiset.mem_coe, coe_entries_insert, Multiset.mem_cons, Multiset.mem_coe]
  rw [find?_eq_some, hMem, mem_entries_erase]
  by_cases hk : k = id
  · simp [hk, eq_comm]
  · simp [hk, find?_eq_some]

theorem find?_map {β : Type} (r : Roster α) (f : PeerId → α → β) (k : PeerId) :
    (r.map f).find? k = (r.find? k).map (f k) := by
  ext y
  rw [find?_eq_some, Option.map_eq_some_iff]
  simp only [map, List.mem_map, Prod.exists, Prod.mk.injEq, find?_eq_some]
  constructor
  · rintro ⟨_, x, hMem, rfl, rfl⟩
    exact ⟨x, hMem, rfl⟩
  · rintro ⟨x, hMem, rfl⟩
    exact ⟨k, x, hMem, rfl, rfl⟩

theorem find?_update (r : Roster α) (id k : PeerId) (f : α → α) :
    (r.update id f).find? k = if k = id then (r.find? k).map f else r.find? k := by
  rw [update, find?_map]
  by_cases hk : k = id <;> simp [hk]

/-- Everything that stands in a roster is as `P` says. -/
def All (r : Roster α) (P : α → Prop) : Prop := ∀ id x, r.find? id = some x → P x

namespace All

variable {P : α → Prop}

theorem insert (h : r.All P) (id : PeerId) (hx : P x) : (r.insert id x).All P := by
  intro k y hy
  rw [find?_insert] at hy
  split at hy
  · exact Option.some.inj hy ▸ hx
  · exact h k y hy

theorem erase (h : r.All P) (id : PeerId) : (r.erase id).All P := by
  intro k y hy
  rw [find?_erase] at hy
  split at hy
  · cases hy
  · exact h k y hy

theorem update (h : r.All P) (id : PeerId) {f : α → α} (hf : ∀ x, P x → P (f x)) :
    (r.update id f).All P := by
  intro k y hy
  rw [find?_update] at hy
  split at hy
  · obtain ⟨x, hx, rfl⟩ := Option.map_eq_some_iff.mp hy
    exact hf x (h k x hx)
  · exact h k y hy

end All

/-! ### Claims -/

/-- The places that connected peers have been asked for. -/
def claims (r : Roster Peer) : Multiset BlockPlace :=
  (r.entries : Multiset (PeerId × Peer)).bind fun e => e.2.claims

variable {peers : Roster Peer} {p : Peer}

theorem claims_of_find? (h : peers.find? id = some p) :
    peers.claims = p.claims + (peers.erase id).claims := by
  rw [claims, coe_entries_of_find? h, Multiset.cons_bind]
  rfl

theorem claims_erase_of_find?_none (h : peers.find? id = none) :
    (peers.erase id).claims = peers.claims := by
  rw [claims, entries_erase_of_find?_none h, claims]

theorem claims_insert (peers : Roster Peer) (id : PeerId) (p : Peer) :
    (peers.insert id p).claims = p.claims + (peers.erase id).claims := by
  rw [claims, coe_entries_insert, Multiset.cons_bind]
  rfl

theorem claims_update (h : peers.find? id = some p) (f : Peer → Peer) :
    (peers.update id f).claims = (f p).claims + (peers.erase id).claims := by
  rw [claims, coe_entries_update h, Multiset.cons_bind]
  rfl

/-- A change of a peer that leaves its requests alone. -/
theorem claims_update_of_pending (peers : Roster Peer) (id : PeerId) {f : Peer → Peer}
    (h : ∀ p, (f p).claims = p.claims) : (peers.update id f).claims = peers.claims := by
  cases hFind : peers.find? id with
  | none => rw [claims, entries_update_of_find?_none hFind, claims]
  | some p => rw [claims_update hFind, h, ← claims_of_find? hFind]

/-- A place is claimed exactly if some connected peer was asked for it. -/
theorem mem_claims {x : BlockPlace} :
    x ∈ peers.claims ↔ ∃ id p, peers.find? id = some p ∧ ∃ r ∈ p.pending, r.place = x := by
  simp only [claims, Multiset.mem_bind, Multiset.mem_coe]
  constructor
  · rintro ⟨⟨id, p⟩, he, hx⟩
    exact ⟨id, p, find?_eq_some.mpr he, List.mem_map.mp (Multiset.mem_coe.mp hx)⟩
  · rintro ⟨id, p, hFind, hx⟩
    exact ⟨(id, p), find?_eq_some.mp hFind, Multiset.mem_coe.mpr (List.mem_map.mpr hx)⟩

theorem claims_eq_zero (h : peers.All fun p => p.pending = []) : peers.claims = 0 := by
  refine Multiset.eq_zero_of_forall_notMem fun x hMem => ?_
  obtain ⟨id, p, hFind, r, hr, _⟩ := mem_claims.mp hMem
  rw [h id p hFind] at hr
  cases hr

end Roster

end TorrentEngine
