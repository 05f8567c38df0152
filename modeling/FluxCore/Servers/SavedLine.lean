import FluxCore.Servers.ServerStatMan
import FluxCore.Util.PatternExpansion
import FluxCore.Uri.RoundTrip

/-!
# A line that is cut off

What is read of a line of which only the start got into the file. A field whose value is cut off is
assigned what is left of the value.
-/

namespace FluxCore.Servers

open Utp (Bytes)
open Uri (cstr decimalBytes)
open ParamedString (stripIter isStripped parseUIntNoThrow until_ behind)
open Util (parseIntNoThrow)

variable {c d : UInt8} {s t v : Bytes} {m : Field → Bytes} {f g : Field}

/-! ## Names of fields -/

theorem mem_FIELDS (f : Field) : f ∈ FIELDS := by
  cases f <;> decide

/-- No name is the start of another one, and no separator is in a name. -/
theorem names_spec : ∀ f ∈ FIELDS, f.name ≠ [] ∧ (∀ g ∈ FIELDS, g.name <+: f.name → g = f) ∧
    ∀ c ∈ f.name, isStripped c = false ∧ c ≠ 0x2c ∧ c ≠ 0x3d := by
  decide +kernel

theorem name_chars (hc : c ∈ f.name) : isStripped c = false ∧ c ≠ 0x2c ∧ c ≠ 0x3d :=
  (names_spec f (mem_FIELDS f)).2.2 c hc

theorem eq_of_isPrefix (h : g.name <+: f.name) : g = f :=
  (names_spec f (mem_FIELDS f)).2.1 g (mem_FIELDS g) h

theorem idField_name (f : Field) : idField f.name = some f := by
  rw [idField]
  cases hfind : FIELDS.find? (fun g => f.name = g.name) with
  | none => simpa using List.find?_eq_none.mp hfind f (mem_FIELDS f)
  | some g =>
    have hg : f.name = g.name := by simpa using List.find?_some hfind
    rw [eq_of_isPrefix (hg ▸ List.prefix_rfl : g.name <+: f.name)]

theorem idField_take {n : Nat} (h : n < f.name.length) : idField (f.name.take n) = none := by
  refine List.find?_eq_none.mpr fun g _ => ?_
  have hne : f.name.take n ≠ g.name := by
    intro heq
    obtain rfl := eq_of_isPrefix (heq ▸ List.take_prefix n f.name : g.name <+: f.name)
    have hlen := congrArg List.length heq
    rw [List.length_take] at hlen
    omega
  simpa using hne

theorem idField_nil : idField [] = none :=
  idField_take (List.length_pos_of_ne_nil (names_spec _ (mem_FIELDS .host)).1)

/-! ## Blanks -/

theorem ne_of_isStripped (hc : isStripped c = true) : c ≠ 0x2c ∧ c ≠ 0x3d := by
  refine ⟨?_, ?_⟩
  · rintro rfl
    exact absurd hc (by decide)
  · rintro rfl
    exact absurd hc (by decide)

theorem stripIter_blank_cons (hc : isStripped c = true) (s : Bytes) :
    stripIter (c :: s) = stripIter s := by
  rw [stripIter, List.dropWhile_cons_of_pos hc, stripIter]

theorem stripIter_append_blank (hc : isStripped c = true) (s : Bytes) :
    stripIter (s ++ [c]) = stripIter s := by
  rw [stripIter, List.dropWhile_append, stripIter]
  split
  next h =>
    rw [List.isEmpty_iff.mp h, List.dropWhile_cons_of_pos hc]
    rfl
  next => rw [List.reverse_append, List.reverse_singleton, List.singleton_append,
    List.dropWhile_cons_of_pos hc]

theorem dropWhile_isStripped (h : ∀ c ∈ s, isStripped c = false) : s.dropWhile isStripped = s := by
  cases s with
  | nil => rfl
  | cons c s => exact List.dropWhile_cons_of_neg (Bool.eq_false_iff.mp (h c (.head s)))

theorem stripIter_eq_self (h : ∀ c ∈ s, isStripped c = false) : stripIter s = s := by
  rw [stripIter, dropWhile_isStripped h,
    dropWhile_isStripped fun c hc => h c (List.mem_reverse.mp hc), List.reverse_reverse]

theorem divide_blank_cons (hc : isStripped c = true) (hd : c ≠ d) (s : Bytes) :
    divide (c :: s) d = divide s d := by
  have hu : until_ (· = d) (c :: s) = c :: until_ (· = d) s := by
    rw [until_, List.takeWhile_cons_of_pos (by simpa using hd), until_]
  have hb : behind (· = d) (c :: s) = behind (· = d) s := by
    rw [behind, List.dropWhile_cons_of_pos (by simpa using hd), behind]
  rw [divide, hu, hb, stripIter_blank_cons hc, divide]

theorem divide_of_notMem (h : d ∉ s) : divide s d = (stripIter s, []) := by
  have hall : ∀ c ∈ s, (!decide (c = d)) = true := by
    intro c hc
    have hne : c ≠ d := by
      rintro rfl
      exact h hc
    simpa using hne
  have hu : until_ (· = d) s = s := List.takeWhile_eq_self_iff.mpr hall
  have hb : behind (· = d) s = [] := by
    rw [behind, List.dropWhile_eq_nil_iff.mpr hall, List.tail_nil]
  rw [divide, hu, hb]
  rfl

theorem divide_append_cons (h : d ∉ s) (t : Bytes) :
    divide (s ++ d :: t) d = (stripIter s, stripIter t) := by
  have hall : ∀ c ∈ s, (!decide (c = d)) = true := by
    intro c hc
    have hne : c ≠ d := by
      rintro rfl
      exact h hc
    simpa using hne
  have hu : until_ (· = d) (s ++ d :: t) = s := by
    rw [until_, List.takeWhile_append_of_pos hall, List.takeWhile_cons_of_neg (by simp),
      List.append_nil]
  have hb : behind (· = d) (s ++ d :: t) = t := by
    rw [behind, List.dropWhile_append_of_pos hall, List.dropWhile_cons_of_neg (by simp),
      List.tail_cons]
  rw [divide, hu, hb]

theorem divide_append_blank (hc : isStripped c = true) (hd : c ≠ d) (s : Bytes) :
    divide (s ++ [c]) d = divide s d := by
  by_cases hmem : d ∈ s
  · obtain ⟨x, y, rfl, hx⟩ := List.eq_append_cons_of_mem hmem
    rw [List.append_assoc, List.cons_append, divide_append_cons hx, divide_append_cons hx,
      stripIter_append_blank hc]
  · have hmem' : d ∉ s ++ [c] := by
      rw [List.mem_append, List.mem_singleton]
      exact not_or.mpr ⟨hmem, hd.symm⟩
    rw [divide_of_notMem hmem', divide_of_notMem hmem, stripIter_append_blank hc]

theorem assign_nil (m : Field → Bytes) : assign m [] = m := by
  have hid : idField (divide [] 0x3d).1 = none := idField_nil
  rw [assign, hid]

theorem assign_blank_cons (hc : isStripped c = true) (m : Field → Bytes) (s : Bytes) :
    assign m (c :: s) = assign m s := by
  rw [assign, divide_blank_cons hc (ne_of_isStripped hc).2, assign]

theorem assign_append_blank (hc : isStripped c = true) (m : Field → Bytes) (s : Bytes) :
    assign m (s ++ [c]) = assign m s := by
  rw [assign, divide_append_blank hc (ne_of_isStripped hc).2, assign]

/-! ## The fields of a line -/

/-- The fields after the items of a line. -/
def assignAll (m : Field → Bytes) (s : Bytes) : Field → Bytes := (splitIter s 0x2c).foldl assign m

theorem assignAll_eq (m : Field → Bytes) (s : Bytes) :
    assignAll m s = (s.splitOn 0x2c).foldl assign m := by
  rw [assignAll, splitIter, List.foldl_filter]
  congr 1
  funext m item
  split
  next => rfl
  next h =>
    have hnil : item = [] := by simpa using h
    rw [hnil, assign_nil]

theorem assignAll_append_cons (h : 0x2c ∉ s) (m : Field → Bytes) (t : Bytes) :
    assignAll m (s ++ 0x2c :: t) = assignAll (assign m s) t := by
  rw [assignAll_eq, List.splitOn_append_cons_self_of_not_mem h, List.foldl_cons, assignAll_eq]

theorem assignAll_of_notMem (h : 0x2c ∉ s) (m : Field → Bytes) : assignAll m s = assign m s := by
  rw [assignAll_eq, List.splitOn_eq_singleton h, List.foldl_cons, List.foldl_nil]

theorem assignAll_blank_cons (hc : isStripped c = true) (m : Field → Bytes) (s : Bytes) :
    assignAll m (c :: s) = assignAll m s := by
  have hcons : ∀ {s : Bytes}, 0x2c ∉ s → 0x2c ∉ c :: s := fun h =>
    List.not_mem_cons_of_ne_of_not_mem (ne_of_isStripped hc).1.symm h
  by_cases hmem : 0x2c ∈ s
  · obtain ⟨x, y, rfl, hx⟩ := List.eq_append_cons_of_mem hmem
    rw [← List.cons_append, assignAll_append_cons (hcons hx), assignAll_append_cons hx,
      assign_blank_cons hc]
  · rw [assignAll_of_notMem (hcons hmem), assignAll_of_notMem hmem, assign_blank_cons hc]

theorem assignAll_append_blank (hc : isStripped c = true) (m : Field → Bytes) (s : Bytes) :
    assignAll m (s ++ [c]) = assignAll m s := by
  induction hn : s.length using Nat.strong_induction_on generalizing s m with
  | _ n ih =>
    by_cases hmem : 0x2c ∈ s
    · obtain ⟨x, y, rfl, hx⟩ := List.eq_append_cons_of_mem hmem
      rw [List.append_assoc, List.cons_append, assignAll_append_cons hx, assignAll_append_cons hx]
      exact ih y.length (by simp at hn; omega) _ _ rfl
    · have hmem' : 0x2c ∉ s ++ [c] := by
        rw [List.mem_append, List.mem_singleton]
        exact not_or.mpr ⟨hmem, (ne_of_isStripped hc).1.symm⟩
      rw [assignAll_of_notMem hmem', assignAll_of_notMem hmem, assign_append_blank hc]

/-- Blanks at the ends of a line do not matter. -/
theorem assignAll_stripIter (m : Field → Bytes) (s : Bytes) :
    assignAll m (stripIter s) = assignAll m s := by
  have hfront : ∀ s : Bytes, assignAll m (s.dropWhile isStripped) = assignAll m s := by
    intro s
    induction s with
    | nil => rfl
    | cons c s ih =>
      by_cases hc : isStripped c = true
      · rw [List.dropWhile_cons_of_pos hc, ih, assignAll_blank_cons hc]
      · rw [List.dropWhile_cons_of_neg hc]
  have hback : ∀ s : Bytes,
      assignAll m (s.dropWhile isStripped).reverse = assignAll m s.reverse := by
    intro s
    induction s with
    | nil => rfl
    | cons c s ih =>
      by_cases hc : isStripped c = true
      · rw [List.dropWhile_cons_of_pos hc, ih, List.reverse_cons, assignAll_append_blank hc]
      · rw [List.dropWhile_cons_of_neg hc]
  rw [stripIter, hback, List.reverse_reverse, hfront]

/-! ## Cut texts -/

/-- No blanks and no commas. -/
def Plain (v : Bytes) : Prop := ∀ c ∈ v, isStripped c = false ∧ c ≠ 0x2c

theorem Plain.take (h : Plain v) (n : Nat) : Plain (v.take n) :=
  fun c hc => h c (List.mem_of_mem_take hc)

def item (p : Field × Bytes) : Bytes := p.1.name ++ 0x3d :: p.2

/-- Fields and their values, one behind the other. -/
def text : List (Field × Bytes) → Bytes
  | [] => []
  | p :: ps => item p ++ if ps = [] then [] else 0x2c :: 0x20 :: text ps

/-- What the first `n` bytes of that text have of the value of a field. -/
def cutValue : Nat → List (Field × Bytes) → Field → Bytes
  | _, [], _ => []
  | n, p :: ps, g =>
    if g = p.1 then p.2.take (n - (p.1.name.length + 1))
    else cutValue (n - ((item p).length + 2)) ps g

variable {p : Field × Bytes} {ps : List (Field × Bytes)} {n : Nat}

theorem length_item (p : Field × Bytes) : (item p).length = p.1.name.length + 1 + p.2.length := by
  rw [item, List.length_append, List.length_cons]
  omega

@[simp] theorem cutValue_zero (ps : List (Field × Bytes)) (g : Field) : cutValue 0 ps g = [] := by
  induction ps with
  | nil => rfl
  | cons p ps ih =>
    rw [cutValue, Nat.zero_sub, Nat.zero_sub, ih, List.take_zero, ite_self]

theorem comma_notMem_item (hv : Plain p.2) (n : Nat) : 0x2c ∉ (item p).take n := by
  intro h
  rcases List.mem_append.mp (List.mem_of_mem_take h) with h | h
  · exact (name_chars h).2.1 rfl
  · rcases List.mem_cons.mp h with h | h
    · exact absurd h (by decide)
    · exact (hv _ h).2 rfl

/-- The field of an item that is cut off. -/
theorem assign_take_item (hv : Plain p.2) (hm : m p.1 = []) (n : Nat) :
    assign m ((item p).take n) =
      fun g => if g = p.1 then p.2.take (n - (p.1.name.length + 1)) else m g := by
  have hname : ∀ k, 0x3d ∉ p.1.name.take k := fun k h =>
    (name_chars (List.mem_of_mem_take h)).2.2 rfl
  have hstrip : ∀ k, stripIter (p.1.name.take k) = p.1.name.take k := fun k =>
    stripIter_eq_self fun c hc => (name_chars (List.mem_of_mem_take hc)).1
  rcases Nat.lt_or_ge p.1.name.length n with hn | hn
  · -- The name is there, and some of the value.
    obtain ⟨k, rfl⟩ := Nat.exists_eq_add_of_lt hn
    have htake : (item p).take (p.1.name.length + k + 1) = p.1.name ++ 0x3d :: p.2.take k := by
      rw [item, Nat.add_assoc, List.take_length_add_append, List.take_succ_cons]
    have hnot := hname p.1.name.length
    have hself := hstrip p.1.name.length
    rw [List.take_length] at hnot hself
    rw [htake, assign, divide_append_cons hnot, hself,
      stripIter_eq_self fun c hc => (hv.take k c hc).1]
    dsimp only
    rw [idField_name, show p.1.name.length + k + 1 - (p.1.name.length + 1) = k by omega]
  · have htake : (item p).take n = p.1.name.take n := by
      rw [item, List.take_append_of_le_length hn]
    have hzero : n - (p.1.name.length + 1) = 0 := by omega
    rw [htake, assign, divide_of_notMem (hname n), hstrip, hzero, List.take_zero]
    dsimp only
    rcases Nat.lt_or_eq_of_le hn with hlt | rfl
    · rw [idField_take hlt]
      dsimp only
      funext g
      split
      next h => rw [h, hm]
      next => rfl
    · rw [List.take_length, idField_name]

/-- What the fields are after the first `n` bytes of a text. -/
theorem assignAll_take_text (hnodup : (ps.map Prod.fst).Nodup) (hv : ∀ p ∈ ps, Plain p.2)
    (hm : ∀ p ∈ ps, m p.1 = []) (n : Nat) :
    assignAll m ((text ps).take n) =
      fun g => if g ∈ ps.map Prod.fst then cutValue n ps g else m g := by
  induction ps generalizing m n with
  | nil =>
    rw [text, List.take_nil]
    rfl
  | cons p ps ih =>
    obtain ⟨hp, hnodup⟩ := List.nodup_cons.mp hnodup
    obtain ⟨hvp, hv⟩ := List.forall_mem_cons.mp hv
    obtain ⟨hmp, hm⟩ := List.forall_mem_cons.mp hm
    by_cases hend : n ≤ (item p).length ∨ ps = []
    · have hcut : (text (p :: ps)).take n = (item p).take n := by
        rcases hend with hn | rfl
        · rw [text, List.take_append_of_le_length hn]
        · rw [text, if_pos rfl, List.append_nil]
      have hrest : ∀ g, cutValue (n - ((item p).length + 2)) ps g = [] := by
        intro g
        rcases hend with hn | rfl
        · rw [Nat.sub_eq_zero_of_le (by omega), cutValue_zero]
        · rfl
      rw [hcut, assignAll_of_notMem (comma_notMem_item hvp n), assign_take_item hvp hmp]
      funext g
      rw [cutValue, hrest, List.map_cons]
      by_cases hg : g = p.1
      · rw [if_pos hg, if_pos (hg ▸ List.mem_cons_self ..), if_pos hg]
      · rw [if_neg hg, if_neg hg]
        split
        next hmem =>
          obtain ⟨q, hq, rfl⟩ := List.mem_map.mp ((List.mem_cons.mp hmem).resolve_left hg)
          exact hm q hq
        next => rfl
    · obtain ⟨hn, hps⟩ := not_or.mp hend
      obtain ⟨k, rfl⟩ := Nat.exists_eq_add_of_lt (Nat.lt_of_not_le hn)
      have hcut : (text (p :: ps)).take ((item p).length + k + 1) =
          item p ++ 0x2c :: (0x20 :: text ps).take k := by
        rw [text, if_neg hps, Nat.add_assoc, List.take_length_add_append, List.take_succ_cons]
      have hblank : ∀ m : Field → Bytes,
          assignAll m ((0x20 :: text ps).take k) = assignAll m ((text ps).take (k - 1)) := by
        intro m
        cases k with
        | zero => rw [Nat.zero_sub, List.take_zero, List.take_zero]
        | succ k => rw [List.take_succ_cons, assignAll_blank_cons (by decide), Nat.add_sub_cancel]
      have hassign : assign m (item p) = fun g => if g = p.1 then p.2 else m g := by
        have h := assign_take_item hvp hmp (item p).length
        rwa [List.take_length, length_item, Nat.add_sub_cancel_left, List.take_length] at h
      have hnot := comma_notMem_item hvp (item p).length
      rw [List.take_length] at hnot
      rw [hcut, assignAll_append_cons hnot, hblank, hassign, ih hnodup hv fun q hq => ?_]
      · funext g
        have hk : (item p).length + k + 1 - ((item p).length + 2) = k - 1 := by omega
        have hfull : p.2.take ((item p).length + k + 1 - (p.1.name.length + 1)) = p.2 :=
          List.take_of_length_le (by rw [length_item]; omega)
        rw [cutValue, hk, hfull, List.map_cons]
        by_cases hg : g = p.1
        · rw [if_neg (hg ▸ hp), if_pos hg, if_pos (hg ▸ List.mem_cons_self ..), if_pos hg]
        · simp only [List.mem_cons, hg, false_or, if_false]
      · exact (if_neg fun h : q.1 = p.1 => hp (h ▸ List.mem_map_of_mem hq)).trans (hm q hq)

/-! ## Values that are there -/

/-- A field is there as a whole where there is something of a later one. -/
theorem cutValue_of_later {pre post : List (Field × Bytes)} {q : Field × Bytes}
    (hnodup : ((pre ++ q :: post).map Prod.fst).Nodup)
    (hne : cutValue n (pre ++ q :: post) q.1 ≠ [])
    (hp : p ∈ pre) : cutValue n (pre ++ q :: post) p.1 = p.2 := by
  induction pre generalizing n with
  | nil => exact absurd hp (List.not_mem_nil)
  | cons r pre ih =>
    rw [List.cons_append, List.map_cons] at hnodup
    obtain ⟨hr, hnodup⟩ := List.nodup_cons.mp hnodup
    have hq : q.1 ≠ r.1 := by
      intro h
      exact hr (h ▸ List.mem_map_of_mem (List.mem_append_right _ (List.mem_cons_self ..)))
    rw [List.cons_append, cutValue, if_neg hq] at hne
    rw [List.cons_append, cutValue]
    rcases List.mem_cons.mp hp with rfl | hp
    · rw [if_pos rfl]
      refine List.take_of_length_le (Nat.le_of_lt (Nat.lt_of_not_le fun hle => hne ?_))
      rw [length_item, Nat.sub_eq_zero_of_le (by omega), cutValue_zero]
    · have hpr : p.1 ≠ r.1 := by
        intro h
        exact hr (h ▸ List.mem_map_of_mem (List.mem_append_left _ hp))
      rw [if_neg hpr]
      exact ih hnodup hne hp

theorem length_le_length_text (pre : List (Field × Bytes)) (q : Field × Bytes) :
    q.2.length ≤ (text (pre ++ [q])).length := by
  induction pre with
  | nil =>
    rw [List.nil_append, text, List.length_append, length_item]
    omega
  | cons r pre ih =>
    rw [List.cons_append, text, if_neg (by simp), List.length_append, List.length_cons,
      List.length_cons]
    omega

/-- What is there of a field, by where its value ends. -/
theorem cutValue_append {pre post : List (Field × Bytes)} {q : Field × Bytes}
    (hq : q.1 ∉ pre.map Prod.fst) (n : Nat) :
    cutValue n (pre ++ q :: post) q.1 =
      q.2.take (n + q.2.length - (text (pre ++ [q])).length) := by
  induction pre generalizing n with
  | nil =>
    rw [List.nil_append, List.nil_append, cutValue, if_pos rfl, text, if_pos rfl, List.append_nil,
      length_item]
    congr 1
    omega
  | cons r pre ih =>
    obtain ⟨hr, hq⟩ := not_or.mp (List.mem_cons.not.mp (List.map_cons ▸ hq))
    have hne : pre ++ [q] ≠ [] := by simp
    rw [List.cons_append, cutValue, if_neg hr, ih hq, List.cons_append, text, if_neg hne,
      List.length_append, List.length_cons, List.length_cons]
    have hle := length_le_length_text pre q
    congr 1
    omega

end FluxCore.Servers
