import Mathlib
import Backpatch.Image

/-!
# Slices of an image

Appending leaves every slice inside the image as it is, and replacing bytes leaves every slice as it
is that has no byte in common with them. The index of the rows is a finite map: what is inserted is
found, and nothing else changes.
-/

namespace Backpatch

/-- The length of an encoded value is the width of its format. -/
theorem FixedFormat.length_encode {f : FixedFormat} {v : Datum} {bs : Bytes}
    (h : f.encode v = .ok bs) : bs.length = f.width := by
  cases f with
  | int f =>
    cases v with
    | int n =>
      simp only [FixedFormat.encode, IntFormat.encode] at h
      split_ifs at h with hr hb
      all_goals
        obtain rfl := Except.ok.inj h
        simp [FixedFormat.width]
    | real | nibbles | text | flag | bytes => simp [FixedFormat.encode] at h
  | real =>
    cases v with
    | real bits =>
      obtain rfl := Except.ok.inj h
      simp [FixedFormat.width]
    | int | nibbles | text | flag | bytes => simp [FixedFormat.encode] at h
  | nibbles =>
    cases v with
    | nibbles high low =>
      simp only [FixedFormat.encode] at h
      split_ifs at h
      obtain rfl := Except.ok.inj h
      rfl
    | int | real | text | flag | bytes => simp [FixedFormat.encode] at h
  | block n =>
    cases v with
    | bytes bs' =>
      simp only [FixedFormat.encode] at h
      split_ifs at h with hl
      obtain rfl := Except.ok.inj h
      exact hl
    | int | real | nibbles | text | flag => simp [FixedFormat.encode] at h

theorem FixedFormat.parts_of_encode_eq_error {format : FixedFormat} {v : Datum} {e : Error}
    (h : format.encode v = .error e) : e.parts = [e] := by
  simp only [FixedFormat.encode] at h
  split at h
  · simp only [IntFormat.encode] at h
    split_ifs at h
    cases h
    rfl
  · cases h
  · split_ifs at h
    cases h
    rfl
  · split_ifs at h
    cases h
    rfl
  · cases h
    rfl

@[simp] theorem FixedFormat.length_placeholder (f : FixedFormat) :
    f.placeholder.length = f.width := by
  simp [FixedFormat.placeholder]

namespace RowIndex

@[simp] theorem get?_empty (offset : Nat) : get? {} offset = none := rfl

theorem get?_insert (m : RowIndex) (offset position k : Nat) :
    (m.insert offset position).get? k = if k = offset then some position else m.get? k := by
  have hsize : offset < (m.places.rightpad (offset + 1) none).size := by
    simp only [Array.rightpad, Array.size_append, Array.size_replicate]
    omega
  rw [insert, get?, Array.getElem?_setIfInBounds, get?]
  by_cases hk : k = offset
  · rw [if_pos hk, if_pos hk.symm, if_pos hsize]
    rfl
  · rw [if_neg hk, if_neg (Ne.symm hk), Array.rightpad, Array.getElem?_append]
    split_ifs with hlt
    · rfl
    · -- A place that was added for the padding is empty.
      rw [Array.getElem?_eq_none (Nat.le_of_not_lt hlt), Array.getElem?_replicate]
      split_ifs <;> rfl

end RowIndex

namespace Image

variable (i : Image) (a n o : Nat) (bs : Bytes) (note : Note)

/-- The `n` bytes from `a` on. -/
def slice : Bytes := (i.bytes.drop a).take n

@[simp] theorem length_bytes : i.bytes.length = i.size := rfl

theorem size_splice (data : Array UInt8) (o : Nat) (bs : Bytes) :
    (splice data o bs).size = data.size := by
  induction bs generalizing data o with
  | nil => rfl
  | cons b bs ih => simp [splice, ih]

theorem getElem?_splice (data : Array UInt8) (o : Nat) (bs : Bytes) (k : Nat)
    (h : o + bs.length ≤ data.size) :
    (splice data o bs)[k]? = if o ≤ k ∧ k < o + bs.length then bs[k - o]? else data[k]? := by
  induction bs generalizing data o with
  | nil =>
    rw [if_neg (by simp)]
    rfl
  | cons b bs ih =>
    simp only [List.length_cons] at h
    rw [splice, ih _ _ (by simp; omega), Array.getElem?_setIfInBounds]
    rcases Nat.lt_trichotomy k o with hk | rfl | hk
    · rw [if_neg (by omega), if_neg (by omega), if_neg (by simp; omega)]
    · rw [if_neg (by omega), if_pos rfl, if_pos (by omega), if_pos (by simp)]
      simp
    · rw [if_neg (show o ≠ k by omega)]
      by_cases hb : k < o + 1 + bs.length
      · obtain ⟨j, rfl⟩ : ∃ j, k = o + 1 + j := ⟨k - (o + 1), by omega⟩
        rw [if_pos (by omega), if_pos (by simp; omega)]
        simp [show o + 1 + j - o = j + 1 by omega]
      · rw [if_neg (by omega), if_neg (by simp; omega)]

theorem data_append : (i.append bs note).data = i.data ++ bs := by
  unfold append
  split_ifs <;> rfl

theorem rows_append : (i.append bs note).rows =
    if bs = [] then i.rows else i.rows.push ⟨i.size, bs, note⟩ := by
  unfold append
  split_ifs with hempty hbs hbs <;> simp_all

theorem index_append : (i.append bs note).index =
    if bs = [] then i.index else i.index.insert i.size i.rows.size := by
  unfold append
  split_ifs with hempty hbs hbs <;> simp_all

theorem bytes_append : (i.append bs note).bytes = i.bytes ++ bs := by
  simp [bytes, data_append]

@[simp] theorem size_append : (i.append bs note).size = i.size + bs.length := by
  rw [← length_bytes, bytes_append, List.length_append, length_bytes]

theorem data_replace : (i.replace o bs note).data = splice i.data o bs := by
  unfold replace
  split <;> rfl

theorem index_replace : (i.replace o bs note).index = i.index := by
  unfold replace
  split <;> rfl

@[simp] theorem size_replace : (i.replace o bs note).size = i.size := by
  rw [size, data_replace, size_splice]
  rfl

theorem getElem?_bytes_replace (k : Nat) (h : o + bs.length ≤ i.size) :
    (i.replace o bs note).bytes[k]? =
      if o ≤ k ∧ k < o + bs.length then bs[k - o]? else i.bytes[k]? := by
  simpa [bytes, data_replace] using getElem?_splice i.data o bs k h

/-- Replacing bytes leaves those in front of them and those behind them. -/
theorem bytes_replace (h : o + bs.length ≤ i.size) :
    (i.replace o bs note).bytes = i.bytes.take o ++ bs ++ i.bytes.drop (o + bs.length) := by
  apply List.ext_getElem?
  intro k
  have hfront : (i.bytes.take o).length = o := by simp; omega
  rw [getElem?_bytes_replace i o bs note k h, List.append_assoc]
  rcases Nat.lt_or_ge k o with hk | hk
  · rw [if_neg (by omega), List.getElem?_append_left (by omega), List.getElem?_take_of_lt hk]
  · rw [List.getElem?_append_right (by omega), hfront]
    by_cases hb : k < o + bs.length
    · rw [if_pos ⟨hk, hb⟩, List.getElem?_append_left (by omega)]
    · rw [if_neg (by omega), List.getElem?_append_right (by omega), List.getElem?_drop]
      congr 1
      omega

theorem getElem?_slice (k : Nat) :
    (i.slice a n)[k]? = if k < n then i.bytes[a + k]? else none := by
  simp [slice, List.getElem?_take]

theorem slice_add (m : Nat) : i.slice a (n + m) = i.slice a n ++ i.slice (a + n) m := by
  simp [slice, List.take_add, List.drop_drop]

theorem slice_append (h : a + n ≤ i.size) : (i.append bs note).slice a n = i.slice a n := by
  apply List.ext_getElem?
  intro k
  rw [getElem?_slice, getElem?_slice, bytes_append]
  split_ifs with hk
  · rw [List.getElem?_append_left (by simp; omega)]
  · rfl

theorem slice_append_end : (i.append bs note).slice i.size bs.length = bs := by
  have : i.size = i.bytes.length := rfl
  rw [slice, bytes_append, this, List.drop_left, List.take_length]

theorem slice_replace (h : o + bs.length ≤ i.size) :
    (i.replace o bs note).slice o bs.length = bs := by
  apply List.ext_getElem?
  intro k
  rw [getElem?_slice, getElem?_bytes_replace i o bs note _ h]
  by_cases hk : k < bs.length
  · rw [if_pos hk, if_pos (by omega)]
    simp
  · rw [if_neg hk, List.getElem?_eq_none (by omega)]

theorem slice_replace_apart (h : o + bs.length ≤ i.size) (hd : a + n ≤ o ∨ o + bs.length ≤ a) :
    (i.replace o bs note).slice a n = i.slice a n := by
  apply List.ext_getElem?
  intro k
  rw [getElem?_slice, getElem?_slice, getElem?_bytes_replace i o bs note _ h]
  split_ifs with hk hb
  · omega
  · rfl
  · rfl

end Image

end Backpatch
