import TorrentEngine.Bytes

/-!
Ranges of a byte string. A range laid over a byte string shows in the slices that meet it and in no
other, and a change that stays inside a range is invisible to every slice outside it.
-/

namespace TorrentEngine.Bytes

theorem getElem?_slice (b : Bytes) (offset length k : Nat) :
    (b.slice offset length)[k]? = if k < length then b[offset + k]? else none := by
  simp only [slice, List.getElem?_take, List.getElem?_drop]

/-- A range laid over a byte string that reaches to its start leaves no gap. -/
theorem getElem?_overwrite_of_le {b data : Bytes} {offset : Nat} (h : offset ≤ b.length) (k : Nat) :
    (b.overwrite offset data)[k]? =
      if offset ≤ k ∧ k < offset + data.length then data[k - offset]? else b[k]? := by
  have hTake : min offset b.length = offset := by omega
  have hGap : offset - b.length = 0 := by omega
  simp only [overwrite, hGap, List.replicate_zero, List.append_nil, List.getElem?_append,
    List.length_append, List.length_take, hTake, List.getElem?_take, List.getElem?_drop]
  by_cases hLow : k < offset
  · rw [if_pos (by omega), if_pos hLow, if_pos hLow, if_neg (by omega)]
  · by_cases hHigh : k < offset + data.length
    · rw [if_pos hHigh, if_neg hLow, if_pos ⟨by omega, hHigh⟩]
    · rw [if_neg hHigh, if_neg (by omega)]
      congr 1
      omega

theorem getElem?_overwrite {b data : Bytes} {offset : Nat} (h : offset + data.length ≤ b.length)
    (k : Nat) :
    (b.overwrite offset data)[k]? =
      if offset ≤ k ∧ k < offset + data.length then data[k - offset]? else b[k]? :=
  getElem?_overwrite_of_le (by omega) k

/-- `b'` is as long as `b` and agrees with it outside of a range. -/
structure AgreeOutside (b b' : Bytes) (offset length : Nat) : Prop where
  length_eq : b'.length = b.length
  same : ∀ k, k < offset ∨ offset + length ≤ k → b'[k]? = b[k]?

theorem AgreeOutside.refl (b : Bytes) (offset length : Nat) : AgreeOutside b b offset length :=
  ⟨rfl, fun _ _ => rfl⟩

theorem agreeOutside_overwrite {b data : Bytes} {offset : Nat}
    (h : offset + data.length ≤ b.length) :
    AgreeOutside b (b.overwrite offset data) offset data.length := by
  refine ⟨length_overwrite h, fun k hk => ?_⟩
  rw [getElem?_overwrite h, if_neg (by omega)]

theorem AgreeOutside.trans {b b' b'' : Bytes} {offset length : Nat}
    (h : AgreeOutside b b' offset length) (h' : AgreeOutside b' b'' offset length) :
    AgreeOutside b b'' offset length :=
  ⟨h'.length_eq.trans h.length_eq, fun k hk => (h'.same k hk).trans (h.same k hk)⟩

/-- What a range held before does not matter once all of it is laid over. -/
theorem AgreeOutside.overwrite_eq {b b' data : Bytes} {offset : Nat}
    (h : AgreeOutside b b' offset data.length) (hInside : offset + data.length ≤ b.length) :
    b'.overwrite offset data = b.overwrite offset data := by
  have hInside' : offset + data.length ≤ b'.length := h.length_eq.symm ▸ hInside
  apply List.ext_getElem?
  intro k
  rw [getElem?_overwrite hInside, getElem?_overwrite hInside']
  split
  · rfl
  · exact h.same k (by omega)

/-- A slice that does not meet the changed range is the same as before. -/
theorem AgreeOutside.slice_eq {b b' : Bytes} {offset length start count : Nat}
    (h : AgreeOutside b b' offset length)
    (hApart : start + count ≤ offset ∨ offset + length ≤ start) :
    b'.slice start count = b.slice start count := by
  apply List.ext_getElem?
  intro k
  rw [getElem?_slice, getElem?_slice]
  split
  · exact h.same _ (by omega)
  · rfl

theorem length_le_overwrite (b : Bytes) (offset : Nat) (data : Bytes) :
    b.length ≤ (b.overwrite offset data).length := by
  simp only [overwrite, List.length_append, List.length_take, List.length_replicate,
    List.length_drop]
  omega

/-- A slice apart from a range that is laid over is the same as before. -/
theorem slice_overwrite_apart {b data : Bytes} {offset start count : Nat} (h : offset ≤ b.length)
    (hApart : start + count ≤ offset ∨ offset + data.length ≤ start) :
    (b.overwrite offset data).slice start count = b.slice start count := by
  apply List.ext_getElem?
  intro k
  rw [getElem?_slice, getElem?_slice]
  split
  · rw [getElem?_overwrite_of_le h, if_neg (by omega)]
  · rfl

/-- A range laid over a byte string is found there. -/
theorem slice_overwrite {b data : Bytes} {offset : Nat} (h : offset + data.length ≤ b.length) :
    (b.overwrite offset data).slice offset data.length = data := by
  apply List.ext_getElem?
  intro k
  rw [getElem?_slice, getElem?_overwrite h]
  by_cases hk : k < data.length
  · rw [if_pos hk, if_pos (by omega), Nat.add_sub_cancel_left]
  · rw [if_neg hk, List.getElem?_eq_none (by omega)]

/-- Equal slices agree at every position. -/
theorem getElem?_of_slice_eq {b other : Bytes} {offset length k : Nat}
    (h : b.slice offset length = other.slice offset length) (hLow : offset ≤ k)
    (hHigh : k < offset + length) : b[k]? = other[k]? := by
  have hAt := congrArg (fun s => s[k - offset]?) h
  simp only [getElem?_slice] at hAt
  rwa [if_pos (by omega), if_pos (by omega), Nat.add_sub_cancel' hLow] at hAt

end TorrentEngine.Bytes
