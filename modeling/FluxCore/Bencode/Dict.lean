import FluxCore.Bencode.Pieces

/-!
# Dictionaries that are put together

Members that are put into a dictionary one after another keep it in the order of its keys, and each
is found again. A dictionary that fits the stack of the parser is decoded as it was encoded.
-/

namespace FluxCore.Bencode

open Utp (Bytes)
open BencodeParser (INT64_MAX)

/-! ## Names -/

theorem toList_loop (bs : ByteArray) (i : Nat) (r : List UInt8) :
    ByteArray.toList.loop bs i r = r.reverse ++ bs.data.toList.drop i := by
  induction h : bs.size - i generalizing i r with
  | zero =>
    rw [ByteArray.toList.loop, if_neg (by omega), List.drop_of_length_le, List.append_nil]
    change bs.data.size ≤ i
    have : bs.size = bs.data.size := rfl
    omega
  | succ n ih =>
    have hi : i < bs.size := by omega
    have hi' : i < bs.data.toList.length := hi
    have hget : bs.get! i = bs.data.toList[i] := by
      change bs.data[i]! = bs.data[i]
      exact getElem!_pos bs.data i hi
    rw [ByteArray.toList.loop, if_pos hi, ih (i + 1) _ (by omega), List.reverse_cons,
      List.append_assoc, List.drop_eq_getElem_cons hi', hget]
    rfl

/-- Names with different characters are different. -/
theorem name_inj {s t : String} : name s = name t ↔ s = t := by
  refine ⟨fun h => ?_, congrArg name⟩
  have hs : ∀ u : String, name u = u.toByteArray.data.toList := fun u => by
    rw [name, String.toUTF8_eq_toByteArray]
    exact toList_loop _ 0 []
  rw [hs, hs] at h
  exact String.toByteArray_inj.mp (ByteArray.ext (Array.toList_inj.mp h))

/-! ## Members -/

namespace Dict

variable {d : Dict} {key k : Bytes} {v : ValueBase} {n : Nat}

theorem mem_put {a : Bytes × ValueBase} (h : a ∈ Dict.put d key v) : a = (key, v) ∨ a ∈ d := by
  induction d with
  | nil => exact .inl (List.mem_singleton.mp h)
  | cons b d ih =>
    obtain ⟨k, w⟩ := b
    rw [Dict.put] at h
    split at h
    · exact (List.mem_cons.mp h).imp_right (List.mem_cons_of_mem _)
    split at h
    · exact List.mem_cons.mp h
    · rcases List.mem_cons.mp h with rfl | h
      · exact .inr (List.mem_cons_self ..)
      · exact (ih h).imp_right (List.mem_cons_of_mem _)

theorem Sorted.put (h : Dict.Sorted d) : Dict.Sorted (Dict.put d key v) := by
  induction d with
  | nil => exact List.pairwise_singleton ..
  | cons b d ih =>
    obtain ⟨k, w⟩ := b
    obtain ⟨hlt, hd⟩ := List.pairwise_cons.mp h
    rw [Dict.put]
    split
    next heq =>
      subst heq
      exact List.pairwise_cons.mpr ⟨hlt, hd⟩
    split
    next hkey =>
      refine List.pairwise_cons.mpr ⟨fun a ha => ?_, h⟩
      rcases List.mem_cons.mp ha with rfl | ha
      · exact hkey
      · exact List.lt_trans hkey (hlt a ha)
    next hne hkey =>
      refine List.pairwise_cons.mpr ⟨fun a ha => ?_, ih hd⟩
      rcases mem_put ha with rfl | ha
      · exact (List.le_iff_lt_or_eq.mp (List.not_lt.mp hkey)).resolve_right (Ne.symm hne)
      · exact hlt a ha

theorem get_cons (a : Bytes × ValueBase) (d : Dict) (k : Bytes) :
    Dict.get (a :: d) k = if k = a.1 then some a.2 else Dict.get d k := by
  unfold Dict.get
  by_cases h : k = a.1
  · rw [List.lookup_cons, h, beq_self_eq_true, if_pos rfl]
  · rw [List.lookup_cons, beq_false_of_ne h, if_neg h]

/-- Only the member of the key is another one. -/
theorem get_put (d : Dict) (key k : Bytes) (v : ValueBase) :
    Dict.get (Dict.put d key v) k = if k = key then some v else Dict.get d k := by
  induction d with
  | nil => rw [Dict.put, get_cons]
  | cons b d ih =>
    obtain ⟨k', w⟩ := b
    rw [Dict.put]
    split
    next heq =>
      subst heq
      rw [get_cons, get_cons]
      split
      · rfl
      · rfl
    split
    · rw [get_cons]
    next hne _ =>
      rw [get_cons, get_cons, ih]
      by_cases hk : k = k'
      · rw [if_pos hk, if_pos hk, if_neg (hk ▸ Ne.symm hne)]
      · rw [if_neg hk, if_neg hk]

theorem get_put_name (d : Dict) (key k : String) (v : ValueBase) :
    Dict.get (Dict.put d (name key) v) (name k) =
      if k = key then some v else Dict.get d (name k) := by
  rw [get_put]
  simp only [name_inj]

theorem getString_put (d : Dict) (key k s : Bytes) :
    Dict.getString (Dict.put d key (.string s)) k =
      if k = key then some s else Dict.getString d k := by
  rw [Dict.getString, get_put]
  by_cases h : k = key
  · rw [if_pos h, if_pos h]
  · rw [if_neg h, if_neg h, Dict.getString]

/-- The dictionary is in order, and its values fit in what `n` places on the stack leave room
for. -/
structure Fits (n : Nat) (d : Dict) : Prop where
  sorted : Dict.Sorted d
  keys : ∀ a ∈ d, a.1.length ≤ INT64_MAX
  values : ∀ a ∈ d, a.2.Everywhere (Representable (-INT64_MAX)) ∧ a.2.nesting < n

theorem Fits.nil (n : Nat) : Fits n [] where
  sorted := .nil
  keys _ h := absurd h List.not_mem_nil
  values _ h := absurd h List.not_mem_nil

theorem Fits.put (h : Fits n d) (hkey : key.length ≤ INT64_MAX)
    (hv : v.Everywhere (Representable (-INT64_MAX))) (hn : v.nesting < n) :
    Fits n (Dict.put d key v) where
  sorted := h.sorted.put
  keys a ha := by
    rcases mem_put ha with rfl | ha
    · exact hkey
    · exact h.keys a ha
  values a ha := by
    rcases mem_put ha with rfl | ha
    · exact ⟨hv, hn⟩
    · exact h.values a ha

theorem Fits.putString {s : Bytes} (h : Fits (n + 1) d) (hkey : key.length ≤ INT64_MAX)
    (hs : s.length ≤ INT64_MAX) : Fits (n + 1) (Dict.put d key (.string s)) :=
  h.put (v := .string s) hkey hs (Nat.succ_pos n)

theorem everywhereMembers_of_forall {P : ValueBase → Prop} {d : List (Bytes × ValueBase)}
    (h : ∀ a ∈ d, a.2.Everywhere P) : EverywhereMembers P d := by
  induction d with
  | nil => trivial
  | cons a d ih =>
    exact ⟨h a (List.mem_cons_self ..), ih fun b hb => h b (List.mem_cons_of_mem _ hb)⟩

theorem nestingMembers_le {d : List (Bytes × ValueBase)} (h : ∀ a ∈ d, a.2.nesting < n) :
    nestingMembers d ≤ n := by
  induction d with
  | nil => exact Nat.zero_le _
  | cons a d ih =>
    exact Nat.max_le.mpr ⟨h a (List.mem_cons_self ..),
      ih fun b hb => h b (List.mem_cons_of_mem _ hb)⟩

theorem Fits.everywhere (h : Fits n d) :
    (ValueBase.dict d).Everywhere (Representable (-INT64_MAX)) ∧
      (ValueBase.dict d).nesting ≤ n :=
  ⟨⟨⟨h.sorted, h.keys⟩, everywhereMembers_of_forall fun a ha => (h.values a ha).1⟩,
    nestingMembers_le fun a ha => (h.values a ha).2⟩

theorem Fits.putInteger {i : Int} (h : Fits (n + 1) d) (hkey : key.length ≤ INT64_MAX)
    (hi : -INT64_MAX ≤ i ∧ i ≤ INT64_MAX) : Fits (n + 1) (Dict.put d key (.integer i)) :=
  h.put (v := .integer i) hkey hi (Nat.succ_pos n)

theorem Fits.putDict {d' : Dict} (h : Fits (n + 1) d) (hkey : key.length ≤ INT64_MAX)
    (h' : Fits n d') : Fits (n + 1) (Dict.put d key (.dict d')) :=
  h.put hkey h'.everywhere.1 (Nat.lt_succ_of_le h'.everywhere.2)

theorem Fits.putStrings {l : List Bytes} (h : Fits (n + 2) d) (hkey : key.length ≤ INT64_MAX)
    (hl : ∀ s ∈ l, s.length ≤ INT64_MAX) :
    Fits (n + 2) (Dict.put d key (.list (l.map .string))) := by
  have heverywhere : EverywhereElements (Representable (-INT64_MAX)) (l.map .string) := by
    induction l with
    | nil => trivial
    | cons s l ih =>
      exact ⟨hl s (List.mem_cons_self ..), ih fun t ht => hl t (List.mem_cons_of_mem _ ht)⟩
  have hnesting : nestingElements (l.map .string) ≤ 1 := by
    clear hl heverywhere
    induction l with
    | nil => exact Nat.zero_le _
    | cons s l ih => exact Nat.max_le.mpr ⟨Nat.le_refl 1, ih⟩
  exact h.put (v := .list _) hkey ⟨trivial, heverywhere⟩ (Nat.lt_of_le_of_lt hnesting (by omega))

theorem Fits.mono {n' : Nat} (h : Fits n d) (hn : n ≤ n') : Fits n' d where
  sorted := h.sorted
  keys := h.keys
  values a ha := ⟨(h.values a ha).1, Nat.lt_of_lt_of_le (h.values a ha).2 hn⟩

/-- What has been encoded is decoded. -/
theorem Fits.decode (h : Fits 49 d) :
    Bencode.decode (encode (.dict d)) = some (.ok ((encode (.dict d)).length, some (.dict d))) := by
  obtain ⟨hvalues, hnesting⟩ := h.everywhere
  have hdecode := decode_of_denotes (Int.le_refl _) (denotes_encode hvalues hnesting) []
  rwa [List.append_nil] at hdecode

end Dict

end FluxCore.Bencode
