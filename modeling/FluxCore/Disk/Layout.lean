import FluxCore.Disk.SharedPieces
import FluxCore.Lib.Memory

/-!
# The bytes of a download in its files

Where a byte of the download lies, and what writing a list of bytes to the download does to one file
(`FileEntry.patch`).
-/

namespace FluxCore.Disk

section Position

variable {start p i j : Nat} {fs : List FileEntry} {f : FileEntry}

/-- The position of the file that has the byte `p`. -/
def position (fs : List FileEntry) (p : Nat) : Nat := (fs.takeWhile (·.offset ≤ p)).length - 1

theorem position_spec (h : Consecutive start fs) (hp : start ≤ p)
    (hlt : p < start + totalLength fs) :
    ∃ f, fs[position fs p]? = some f ∧ f.offset ≤ p ∧ p < f.getLastOffset := by
  induction fs generalizing start with
  | nil => exact absurd hlt (Nat.not_lt.mpr hp)
  | cons f fs ih =>
    obtain ⟨rfl, h⟩ := h
    have htake : ((f :: fs).takeWhile (·.offset ≤ p)) = f :: fs.takeWhile (·.offset ≤ p) :=
      List.takeWhile_cons_of_pos (by simpa using hp)
    by_cases hin : p < f.offset + f.length
    · refine ⟨f, ?_, hp, hin⟩
      have hnil : fs.takeWhile (·.offset ≤ p) = [] := by
        cases fs with
        | nil => rfl
        | cons g gs =>
          refine List.takeWhile_cons_of_neg ?_
          simpa [h.1] using hin
      rw [position, htake, hnil]
      rfl
    · have hle : f.offset + f.length ≤ p := Nat.le_of_not_lt hin
      have htotal : totalLength (f :: fs) = f.length + totalLength fs := List.sum_cons
      obtain ⟨g, hg, hoffset, hlast⟩ := ih h hle (by omega)
      refine ⟨g, ?_, hoffset, hlast⟩
      have hpos : 0 < (fs.takeWhile (·.offset ≤ p)).length := by
        cases fs with
        | nil => exact nomatch hg
        | cons g gs =>
          rw [List.takeWhile_cons_of_pos (by simpa [h.1] using hle)]
          exact Nat.succ_pos _
      rw [position, htake, List.length_cons, Nat.add_sub_cancel]
      rw [position] at hg
      obtain ⟨k, hk⟩ := Nat.exists_eq_add_of_lt hpos
      rw [hk] at hg ⊢
      simpa using hg

end Position

namespace FileEntry

variable {e : FileEntry} {f : File} {offset k : Nat} {data xs ys : List UInt8}

/-- What writing `data` to the bytes of the download from `offset` on does to a file. -/
def patch (e : FileEntry) (f : File) (offset : Nat) (data : List UInt8) : File :=
  f.write (offset - e.offset)
    ((data.drop (e.offset - offset)).take (e.getLastOffset - max offset e.offset))

theorem patch_eq_self (h : offset + data.length ≤ e.offset ∨ e.getLastOffset ≤ offset) :
    e.patch f offset data = f := by
  have hnil :
      (data.drop (e.offset - offset)).take (e.getLastOffset - max offset e.offset) = [] := by
    rcases h with h | h
    · rw [List.drop_eq_nil_of_le (by omega), List.take_nil]
    · rw [Nat.sub_eq_zero_of_le (h.trans (Nat.le_max_left ..)), List.take_zero]
  rw [patch, hnil]
  exact if_pos rfl

theorem getElem?_patch (hk : k < e.length) : (e.patch f offset data)[k]? =
    if offset ≤ e.offset + k ∧ e.offset + k < offset + data.length then
      data[e.offset + k - offset]?
    else if k < f.length then f[k]?
    else if e.offset + k < offset ∧
      (data.drop (e.offset - offset)).take (e.getLastOffset - max offset e.offset) ≠ [] then some 0
    else none := by
  rw [patch, File.getElem?_write, List.length_take, List.length_drop]
  by_cases hin : offset ≤ e.offset + k ∧ e.offset + k < offset + data.length
  · rw [if_pos (by rw [getLastOffset]; omega), if_pos hin, List.getElem?_take,
      if_pos (by rw [getLastOffset]; omega), List.getElem?_drop]
    congr 1
    omega
  · rw [if_neg (by omega), if_neg hin]
    congr 2
    refine propext (and_congr_left' ?_)
    omega

end FileEntry

namespace File

theorem length_write {f : File} {offset : Nat} {data : List UInt8} (h : data ≠ []) :
    (f.write offset data).length = max f.length (offset + data.length) := by
  rw [write, if_neg h, List.length_append, List.length_append, List.length_take,
    List.length_append, List.length_replicate, List.length_drop]
  omega

/-- Two lists written one behind the other are one list. -/
theorem write_append (f : File) (offset : Nat) (xs ys : List UInt8) :
    (f.write offset xs).write (offset + xs.length) ys = f.write offset (xs ++ ys) := by
  by_cases hxs : xs = []
  · subst hxs
    rw [List.length_nil, Nat.add_zero, List.nil_append]
    congr 1
  refine List.ext_getElem? fun k => ?_
  rw [getElem?_write (f.write offset xs), getElem?_write f offset xs,
    getElem?_write f offset (xs ++ ys), length_write hxs, List.length_append]
  by_cases hk : offset + xs.length ≤ k ∧ k < offset + xs.length + ys.length
  · rw [if_pos hk, if_pos (by omega), List.getElem?_append_right (by omega), Nat.sub_sub]
  rw [if_neg hk]
  by_cases hk' : offset ≤ k ∧ k < offset + xs.length
  · rw [if_pos (by omega), if_pos hk', if_pos (by omega), List.getElem?_append_left (by omega)]
  rw [if_neg hk', if_neg (show ¬(offset ≤ k ∧ k < offset + (xs.length + ys.length)) by omega)]
  have hne : xs ++ ys ≠ [] := by simp [hxs]
  simp only [hxs, hne, ne_eq, not_false_eq_true, and_true]
  split_ifs
  all_goals first | rfl | omega

end File

/-- The patches of two lists one behind the other are the patch of one list. -/
theorem FileEntry.patch_append (e : FileEntry) (f : File) (offset : Nat) (xs ys : List UInt8) :
    e.patch (e.patch f offset xs) (offset + xs.length) ys = e.patch f offset (xs ++ ys) := by
  by_cases hbefore : offset + xs.length ≤ e.offset
  · have hnil : xs.drop (e.offset - offset) = [] := List.drop_eq_nil_of_le (by omega)
    rw [patch_eq_self (.inl hbefore), patch, patch, List.drop_append, hnil, List.nil_append]
    congr 1
    · omega
    · congr 1
      · omega
      · congr 1
        omega
  by_cases hbehind : e.getLastOffset ≤ offset
  · rw [patch_eq_self (.inr hbehind), patch_eq_self (.inr hbehind),
      patch_eq_self (.inr (Nat.le_add_right_of_le hbehind))]
  have hdrop : (xs ++ ys).drop (e.offset - offset) = xs.drop (e.offset - offset) ++ ys := by
    rw [List.drop_append_of_le_length (by omega)]
  by_cases hall : e.getLastOffset ≤ offset + xs.length
  · rw [patch_eq_self (.inr hall), patch, patch, hdrop, List.take_append_of_le_length]
    rw [List.length_drop]
    omega
  · have hlen : (xs.drop (e.offset - offset)).length = xs.length - (e.offset - offset) :=
      List.length_drop
    rw [patch, patch, patch, hdrop, List.take_append, hlen,
      List.take_of_length_le (by omega),
      show e.offset - (offset + xs.length) = 0 by omega, List.drop_zero,
      ← File.write_append, hlen]
    congr 1
    · omega
    · congr 1
      omega

end FluxCore.Disk
