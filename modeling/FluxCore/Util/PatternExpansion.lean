import FluxCore.Util.ParamedString

/-!
# The expansion of a pattern

`expand` returns the product of the alternatives of a pattern, if no loop divides by zero and no
number of one is too long for the buffer of `fmt`.
-/

namespace FluxCore.ParamedString

open Utp (Bytes)
open Util (isDigit parseLong decimal)
open Uri (decimalBytes)

variable {res cs : List Bytes} {s first last rest lit : Bytes} {c : UInt8} {m n k : Nat}
  {max : Nat} {step : Option Bytes} {text : Nat → Bytes} {zero : UInt8}

/-! ## Products -/

@[simp] theorem appendAll_nil (res : List Bytes) : appendAll res [[]] = res := by
  simp [appendAll]

theorem appendAll_product (res cs : List Bytes) (rest : List (List Bytes)) :
    appendAll res (product (cs :: rest)) = appendAll (appendAll res cs) (product rest) := by
  simp only [appendAll, product, List.flatMap_assoc, List.map_flatMap, List.flatMap_map,
    List.map_map]
  congr 1
  funext r
  congr 1
  funext a
  congr 1
  funext b
  exact (List.append_assoc r a b).symm

/-! ## Counters -/

/-- The loop counts through the sequence. -/
theorem countLoop_eq {fuel : Nat} (hs : k ≠ 0) (hle : m ≤ n) (hmax : n + k < max)
    (hfuel : n + 2 - m ≤ fuel) : countLoop max k n fuel m = .ok (steps m n k) := by
  induction fuel generalizing m with
  | zero => omega
  | succ fuel ih =>
    rw [countLoop, if_pos hle, if_neg (by omega), steps]
    by_cases hnext : m + k ≤ n
    · have hdiv : (n - m) / k = (n - (m + k)) / k + 1 := by
        rw [← Nat.add_div_right _ (Nat.pos_of_ne_zero hs)]
        congr 1
        omega
      rw [ih hnext (by omega), Outcome.bind_ok, steps, hdiv]
      conv_rhs => rw [List.range_succ_eq_map, List.map_cons, List.map_map, Nat.zero_mul, Nat.add_zero]
      refine congrArg (fun js => Outcome.ok (m :: js)) (List.map_congr_left fun j _ => ?_)
      rw [Function.comp, Nat.succ_mul]
      omega
    · have hdiv : (n - m) / k = 0 := Nat.div_eq_of_lt (by omega)
      obtain ⟨fuel, rfl⟩ := Nat.exists_eq_succ_of_ne_zero (show fuel ≠ 0 by omega)
      rw [countLoop, if_neg hnext, hdiv]
      simp

theorem le_of_mem_steps (hle : m ≤ n) {j : Nat} (hj : j ∈ steps m n k) : j ≤ n := by
  obtain ⟨i, hi, rfl⟩ := List.mem_map.mp hj
  have hmul : i * k ≤ (n - m) / k * k :=
    Nat.mul_le_mul_right k (Nat.le_of_lt_succ (List.mem_range.mp hi))
  have := Nat.div_mul_le_self (n - m) k
  omega

theorem expandCounter_eq (hs : m ≤ n → k ≠ 0) (hmax : n + k < max) (res : List Bytes)
    (text : Nat → Bytes) : expandCounter res max m n k text =
      .ok (appendAll res (if m ≤ n then (steps m n k).map text else [[]])) := by
  rw [expandCounter]
  split
  next hle =>
    rw [if_neg (hs hle), countLoop_eq (hs hle) hle hmax (Nat.le_refl _), Outcome.bind_ok]
  next => rw [appendAll_nil]

theorem expandCounter_congr {text' : Nat → Bytes} (hs : m ≤ n → k ≠ 0) (hmax : n + k < max)
    (h : ∀ j ≤ n, text j = text' j) :
    expandCounter res max m n k text = expandCounter res max m n k text' := by
  rw [expandCounter_eq hs hmax, expandCounter_eq hs hmax]
  split
  next hle => rw [List.map_congr_left fun j hj => h j (le_of_mem_steps hle hj)]
  next => rfl

/-! ## Texts of numbers -/

theorem base26Loop_eq {fuel : Nat} (h : n ≤ fuel) :
    base26Loop zero fuel n = (Nat.digits 26 n).map fun d => zero + UInt8.ofNat d := by
  induction fuel generalizing n with
  | zero =>
    obtain rfl := Nat.le_zero.mp h
    rfl
  | succ fuel ih =>
    rw [base26Loop]
    split
    next hn => rw [hn]; rfl
    next hn =>
      rw [Nat.digits_def' (by decide) (Nat.pos_of_ne_zero hn), List.map_cons, ih (by omega)]

theorem toBase26_eq (n : Nat) (zero : UInt8) (width : Nat) :
    toBase26 n zero width = letters zero width n := by
  rw [toBase26, letters, base26Loop_eq (Nat.le_refl n), List.reverse_append,
    List.reverse_replicate, List.map_reverse, List.length_reverse, List.length_map]
  congr 2
  by_cases hn : n = 0
  · subst hn
    by_cases hw : width = 0
    · subst hw
      rfl
    · rw [if_neg (fun h => hw h.2)]
      omega
  · have hpos : 0 < (Nat.digits 26 n).length :=
      List.length_pos_of_ne_nil (Nat.digits_ne_nil_iff_ne_zero.mpr hn)
    rw [if_neg (fun h => hn h.1)]
    omega

theorem length_decimalBytes (h : n ≤ UINT16_MAX) : (decimalBytes n).length ≤ 5 := by
  rw [decimalBytes, List.length_map]
  exact Nat.toDigits_length 10 n 5 (by decide) (Nat.lt_of_le_of_lt h (by decide))

theorem fmtPadded_eq {width : Nat} (hw : width < 2048) (h : n ≤ UINT16_MAX) :
    fmtPadded width n = digits width n := by
  have hlen := length_decimalBytes h
  rw [fmtPadded, if_neg (by omega), digits]
  refine List.take_of_length_le ?_
  rw [List.length_append, List.length_replicate]
  omega

/-! ## Bounds -/

theorem isNumber_iff : isNumber s = true ↔ s ≠ [] ∧ ∀ c ∈ s, isDigit c = true := by
  simp [isNumber]

/-- A number is read where it is not too big. -/
theorem parseUIntNoThrow_digits (h : isNumber s = true) :
    parseUIntNoThrow s = if decimal s < 2 ^ 31 then some (decimal s) else none := by
  rw [parseUIntNoThrow, Util.parseLong_digits (isNumber_iff.mp h)]
  by_cases hlt : decimal s < 2 ^ 31
  · rw [if_pos hlt, if_pos (Nat.lt_trans hlt (by decide))]
    dsimp only
    rw [if_pos (by omega), Int.toNat_natCast]
  · rw [if_neg hlt]
    split
    next t ht =>
      split at ht
      · obtain rfl := Option.some.inj ht
        exact if_neg (by omega)
      · exact nomatch ht
    next => rfl

theorem foldl_letterValue_ge (zero : UInt8) (s : Bytes) (m : Nat) :
    m ≤ s.foldl (fun n c => n * 26 + (c.toNat - zero.toNat)) m := by
  induction s generalizing m with
  | nil => exact Nat.le_refl m
  | cons c s ih => exact Nat.le_trans (by dsimp only; omega) (ih _)

/-- The letters are read, if their value is not too big at the end. It does not overflow before. -/
theorem fromBase26_eq (zero : UInt8) (s : Bytes) (hm : m ≤ UINT16_MAX) :
    fromBase26 zero m s =
      let v := s.foldl (fun n c => n * 26 + (c.toNat - zero.toNat)) m
      if UINT16_MAX < v then .thrown "Loop range overflow." else .ok v := by
  induction s generalizing m with
  | nil => exact (if_neg (Nat.not_lt.mpr hm)).symm
  | cons c s ih =>
    have hsmall : m * 26 + (c.toNat - zero.toNat) < 2 ^ 31 := by
      have hc := c.toNat_lt
      rw [UINT16_MAX] at hm
      omega
    rw [fromBase26]
    dsimp only
    rw [if_neg (Nat.not_le.mpr hsmall)]
    split
    next hbig =>
      exact (if_pos (Nat.lt_of_lt_of_le hbig (foldl_letterValue_ge zero s _))).symm
    next hsmall => exact ih (Nat.not_lt.mp hsmall)

theorem isNumber_of_isLowercase (h : isLowercase s = true) : isNumber s = false := by
  rw [isLowercase, Bool.and_eq_true, List.all_eq_true] at h
  obtain - | ⟨c, s⟩ := s
  · rfl
  refine Bool.eq_false_iff.mpr fun hnum => ?_
  have hd := Util.isDigit_iff.mp ((isNumber_iff.mp hnum).2 c (.head s))
  have hc := h.2 c (.head s)
  simp [UInt8.le_iff_toNat_le] at hc
  omega

theorem head_of_isUppercase (h : isUppercase s = true) :
    isNumber s = false ∧ isLowercase s = false ∧ ¬(0x61 ≤ s.headD 0 ∧ s.headD 0 ≤ 0x7a) := by
  rw [isUppercase, Bool.and_eq_true, List.all_eq_true] at h
  obtain - | ⟨c, s⟩ := s
  · exact nomatch h.1
  have hc := h.2 c (.head s)
  simp [UInt8.le_iff_toNat_le] at hc
  refine ⟨Bool.eq_false_iff.mpr fun hnum => ?_, Bool.eq_false_iff.mpr fun hlow => ?_, fun hlow => ?_⟩
  · have hd := Util.isDigit_iff.mp ((isNumber_iff.mp hnum).2 c (.head s))
    omega
  · rw [isLowercase, Bool.and_eq_true, List.all_eq_true] at hlow
    have hd := hlow.2 c (.head s)
    simp [UInt8.le_iff_toNat_le] at hd
    omega
  · simp only [List.headD_cons, UInt8.le_iff_toNat_le, UInt8.toNat_ofNat] at hlow
    omega

theorem head_of_isLowercase (h : isLowercase s = true) :
    0x61 ≤ s.headD 0 ∧ s.headD 0 ≤ 0x7a := by
  rw [isLowercase, Bool.and_eq_true, List.all_eq_true] at h
  obtain - | ⟨c, s⟩ := s
  · exact nomatch h.1
  · simpa using h.2 c (.head s)

/-- A loop with letters. -/
theorem expandRange_letters (hzero : (zero = 0x61 ∧ isLowercase first = true ∧
      isLowercase last = true) ∨ (zero = 0x41 ∧ isUppercase first = true ∧ isUppercase last = true)) :
    expandRange res first last k =
      (fromBase26 zero 0 first).bind fun start => (fromBase26 zero 0 last).bind fun stop =>
        expandCounter res (2 ^ 31) start stop k (letters zero (writtenWidth first last)) := by
  have hnum : ¬(isNumber first = true ∧ isNumber last = true) := by
    rintro ⟨h, -⟩
    obtain ⟨-, hlow, -⟩ | ⟨-, hup, -⟩ := hzero
    · exact Bool.false_ne_true ((isNumber_of_isLowercase hlow).symm.trans h)
    · exact Bool.false_ne_true ((head_of_isUppercase hup).1.symm.trans h)
  have hcase : (isLowercase first = true ∧ isLowercase last = true) ∨
      (isUppercase first = true ∧ isUppercase last = true) := hzero.imp And.right And.right
  have hzero' : (if 0x61 ≤ first.headD 0 ∧ first.headD 0 ≤ 0x7a then 0x61 else 0x41) = zero := by
    obtain ⟨rfl, hlow, -⟩ | ⟨rfl, hup, -⟩ := hzero
    · exact if_pos (head_of_isLowercase hlow)
    · exact if_neg (head_of_isUppercase hup).2.2
  rw [expandRange, if_neg hnum, if_pos hcase]
  simp only [hzero', toBase26_eq]
  rfl

/-- Loops with good bounds are expanded. -/
theorem expandRange_eq (h : Bounds first last m n text) (hs : m ≤ n → k ≠ 0) (hk : k ≤ UINT16_MAX)
    (hw : isNumber first = true → first.length = last.length → first.length < 2048)
    (res : List Bytes) : expandRange res first last k =
      .ok (appendAll res (if m ≤ n then (steps m n k).map text else [[]])) := by
  cases h with
  | numbers hfirst hlast hm hn =>
    have hmax : UINT16_MAX < 2 ^ 31 := by decide
    rw [expandRange, if_pos ⟨hfirst, hlast⟩, parseUIntNoThrow_digits hfirst,
      parseUIntNoThrow_digits hlast, if_pos (by omega), if_pos (by omega)]
    dsimp only
    have hmax : decimal last + k < 2 ^ 32 := by
      rw [UINT16_MAX] at hn hk
      omega
    rw [if_neg (by omega), expandCounter_congr hs hmax fun j hj => ?_, expandCounter_eq hs hmax]
    rw [writtenWidth]
    split
    next heq => exact fmtPadded_eq (hw hfirst heq) (Nat.le_trans hj hn)
    next => rw [digits, Nat.zero_sub, List.replicate_zero, List.nil_append]
  | letters zero hzero hm hn =>
    have hread {s : Bytes} (h : letterValue zero s ≤ UINT16_MAX) :
        fromBase26 zero 0 s = .ok (letterValue zero s) :=
      (fromBase26_eq zero s (Nat.zero_le _)).trans (if_neg (Nat.not_lt.mpr h))
    have hmax : letterValue zero last + k < 2 ^ 31 := by
      rw [UINT16_MAX] at hn hk
      omega
    rw [expandRange_letters hzero, hread hm, hread hn, Outcome.bind_ok, Outcome.bind_ok,
      expandCounter_eq hs hmax]

/-- Loops without are not. -/
theorem exists_bounds (h : ∀ message, expandRange res first last k ≠ .thrown message) :
    ∃ m n text, Bounds first last m n text := by
  by_cases hnum : isNumber first = true ∧ isNumber last = true
  · rw [expandRange, if_pos hnum, parseUIntNoThrow_digits hnum.1,
      parseUIntNoThrow_digits hnum.2] at h
    by_cases h1 : decimal first < 2 ^ 31
    · by_cases h2 : decimal last < 2 ^ 31
      · rw [if_pos h1, if_pos h2] at h
        dsimp only at h
        by_cases hbig : UINT16_MAX < decimal first ∨ UINT16_MAX < decimal last
        · rw [if_pos hbig] at h
          exact absurd rfl (h _)
        · exact ⟨_, _, _, .numbers hnum.1 hnum.2 (by omega) (by omega)⟩
      · rw [if_pos h1, if_neg h2] at h
        exact absurd rfl (h _)
    · rw [if_neg h1] at h
      exact absurd rfl (h _)
  by_cases hcase : (isLowercase first = true ∧ isLowercase last = true) ∨
      (isUppercase first = true ∧ isUppercase last = true)
  · obtain ⟨zero, hzero⟩ : ∃ zero : UInt8, (zero = 0x61 ∧ isLowercase first = true ∧
        isLowercase last = true) ∨
        (zero = 0x41 ∧ isUppercase first = true ∧ isUppercase last = true) := by
      rcases hcase with hlow | hup
      · exact ⟨0x61, .inl ⟨rfl, hlow⟩⟩
      · exact ⟨0x41, .inr ⟨rfl, hup⟩⟩
    rw [expandRange_letters hzero, fromBase26_eq zero first (Nat.zero_le _),
      fromBase26_eq zero last (Nat.zero_le _)] at h
    dsimp only at h
    by_cases h1 : UINT16_MAX < letterValue zero first
    · rw [letterValue] at h1
      rw [if_pos h1] at h
      exact absurd rfl (h _)
    by_cases h2 : UINT16_MAX < letterValue zero last
    · rw [letterValue] at h1 h2
      rw [if_neg h1, if_pos h2] at h
      exact absurd rfl (h _)
    · exact ⟨_, _, _, .letters zero hzero (Nat.not_lt.mp h1) (Nat.not_lt.mp h2)⟩
  · rw [expandRange, if_neg hnum, if_neg hcase] at h
    exact absurd rfl (h _)

/-! ## Segments -/

theorem until_append {p : UInt8 → Bool} (h : ∀ x ∈ s, p x = false) (hc : p c = true)
    (rest : Bytes) : until_ p (s ++ c :: rest) = s := by
  refine Util.takeWhile_append_of_head (fun x hx => by rw [h x hx]; rfl) ?_
  exact fun x hx => Option.some.inj hx ▸ by rw [hc]; rfl

theorem behind_append {p : UInt8 → Bool} (h : ∀ x ∈ s, p x = false) (hc : p c = true)
    (rest : Bytes) : behind p (s ++ c :: rest) = rest := by
  have hdrop : (s ++ c :: rest).dropWhile (fun c => !p c) = c :: rest :=
    Util.dropWhile_append_of_head (fun x hx => by rw [h x hx]; rfl)
      fun x hx => Option.some.inj hx ▸ by rw [hc]; rfl
  rw [behind, hdrop, List.tail_cons]

theorem until_of_not {p : UInt8 → Bool} (h : ∀ x ∈ s, p x = false) : until_ p s = s :=
  List.takeWhile_eq_self_iff.mpr fun x hx => by rw [h x hx]; rfl

theorem ne_of_notMem {a : UInt8} (h : a ∉ s) : ∀ x ∈ s, decide (x = a) = false :=
  fun _ hx => decide_eq_false fun heq => h (heq ▸ hx)

/-- The step of a loop. -/
def stepOf : Option Bytes → Outcome Nat
  | none => .ok 1
  | some text =>
    match parseUIntNoThrow text with
    | none => .thrown "A step count must be a positive number."
    | some step => if UINT16_MAX < step then .thrown "Loop step overflow." else .ok step

theorem stepOf_eq_ok : stepOf step = .ok k ↔ Step step k := by
  cases step with
  | none => exact ⟨fun h => Outcome.ok.inj h ▸ .one, fun h => by cases h; rfl⟩
  | some text =>
    rw [stepOf]
    constructor
    · intro h
      split at h
      · exact nomatch h
      next s hs =>
        split at h
        · exact nomatch h
        next hle =>
          obtain rfl := Outcome.ok.inj h
          exact .written text s hs (Nat.not_lt.mp hle)
    · intro h
      cases h with
      | written _ _ hs hle =>
        rw [hs]
        exact if_neg (Nat.not_lt.mpr hle)

theorem Step.le (h : Step step k) : k ≤ UINT16_MAX := by
  cases h with
  | one => decide
  | written _ _ _ hle => exact hle

theorem stepOf_ne_undefined (step : Option Bytes) : stepOf step ≠ .undefined := by
  cases step with
  | none => exact nofun
  | some text =>
    rw [stepOf]
    split
    · exact nofun
    · split <;> exact nofun

theorem loopStep_eq (h : 0x3a ∉ s) (step : Option Bytes) :
    loopStep (s ++ Segment.stepText step) = stepOf step := by
  cases step with
  | none => rw [Segment.stepText, List.append_nil, loopStep, if_pos h, stepOf]
  | some text =>
    have hmem : ¬ 0x3a ∉ s ++ 0x3a :: text := by simp
    rw [Segment.stepText, loopStep, if_neg hmem, behind_append (ne_of_notMem h) rfl]
    rfl

theorem until_stepText (h : 0x3a ∉ s) (step : Option Bytes) :
    until_ (· = 0x3a) (s ++ Segment.stepText step) = s := by
  cases step with
  | none => rw [Segment.stepText, List.append_nil, until_of_not (ne_of_notMem h)]
  | some text => rw [Segment.stepText, until_append (ne_of_notMem h) rfl]

/-- A loop is expanded by its bounds and its step. -/
theorem expandLoop_render (h : (Segment.loop first last step).Formed) (res : List Bytes)
    (rest : Bytes) :
    expandLoop res (first ++ 0x2d :: (last ++ (Segment.stepText step ++ 0x5d :: rest))) =
      (stepOf step).bind fun k => (expandRange res first last k).bind fun res => .ok (res, rest) := by
  obtain ⟨hend, hcolon, hminus⟩ := h
  have hbody : 0x5d ∉ (first ++ 0x2d :: last) ++ Segment.stepText step := by
    simpa using hend
  have hbounds : 0x3a ∉ first ++ 0x2d :: last := by simpa using hcolon
  have hcat : first ++ 0x2d :: (last ++ (Segment.stepText step ++ 0x5d :: rest)) =
      ((first ++ 0x2d :: last) ++ Segment.stepText step) ++ 0x5d :: rest := by simp
  have hmem : ¬ 0x5d ∉ ((first ++ 0x2d :: last) ++ Segment.stepText step) ++ 0x5d :: rest := by simp
  have hminus' : ¬ 0x2d ∉ first ++ 0x2d :: last := by simp
  rw [hcat, expandLoop, if_neg hmem]
  dsimp only
  rw [until_append (ne_of_notMem hbody) rfl, behind_append (ne_of_notMem hbody) rfl,
    loopStep_eq hbounds, until_stepText hbounds]
  have hfirst : until_ (· = 0x2d) (first ++ 0x2d :: last) = first :=
    until_append (ne_of_notMem hminus) rfl last
  have hlast : behind (· = 0x2d) (first ++ 0x2d :: last) = last :=
    behind_append (ne_of_notMem hminus) rfl last
  simp only [if_neg hminus', hfirst, hlast]

/-- What is no loop is not expanded. -/
theorem exists_loop (h : ∀ message, expandLoop res s ≠ .thrown message) :
    ∃ first last step rest, (Segment.loop first last step).Formed ∧
      s = first ++ 0x2d :: (last ++ (Segment.stepText step ++ 0x5d :: rest)) := by
  by_cases hend : 0x5d ∈ s
  swap
  · exact absurd (if_pos hend) (h _)
  obtain ⟨body, rest, rfl, hbody⟩ := List.eq_append_cons_of_mem hend
  obtain ⟨bounds, step, rfl, hcolon⟩ : ∃ bounds step, body = bounds ++ Segment.stepText step ∧
      0x3a ∉ bounds := by
    by_cases hcolon : 0x3a ∈ body
    · obtain ⟨bounds, text, rfl, hno⟩ := List.eq_append_cons_of_mem hcolon
      exact ⟨bounds, some text, rfl, hno⟩
    · exact ⟨body, none, (List.append_nil body).symm, hcolon⟩
  by_cases hminus : 0x2d ∈ bounds
  · obtain ⟨first, last, rfl, hno⟩ := List.eq_append_cons_of_mem hminus
    refine ⟨first, last, step, rest, ⟨?_, ?_, hno⟩, by simp⟩
    · simpa using hbody
    · simpa using hcolon
  · rw [expandLoop, if_neg (not_not.mpr hend)] at h
    dsimp only at h
    rw [until_append (ne_of_notMem hbody) rfl, loopStep_eq hcolon, until_stepText hcolon] at h
    simp only [if_pos hminus] at h
    rcases hstep : stepOf step with k | m | -
    · rw [hstep] at h
      exact absurd rfl (h _)
    · rw [hstep] at h
      exact absurd rfl (h _)
    · exact absurd hstep (stepOf_ne_undefined step)

/-- The bracket at the beginning of some bytes. -/
def expandBracket (res : List Bytes) (c : UInt8) (s : Bytes) : Outcome (List Bytes × Bytes) :=
  if c = 0x7b then expandChoice res s else expandLoop res s

/-- What a segment denotes takes its place. -/
theorem expandBracket_render {seg : Segment} {alts : List Bytes} (hformed : seg.Formed)
    (h : seg.Denotes alts) (hsound : seg.Sound) (res : List Bytes) (rest : Bytes) :
    ∃ c s, seg.render ++ rest = c :: s ∧ isOpening c = true ∧
      expandBracket res c s = .ok (appendAll res alts, rest) := by
  cases h with
  | choice body =>
    have hbody : 0x7d ∉ body := hformed
    have hmem : ¬ 0x7d ∉ body ++ 0x7d :: rest := by simp
    refine ⟨0x7b, body ++ 0x7d :: rest, by simp [Segment.render], rfl, ?_⟩
    rw [expandBracket, if_pos rfl, expandChoice, if_neg hmem, until_append (ne_of_notMem hbody) rfl,
      behind_append (ne_of_notMem hbody) rfl]
  | loop first last step m n k text hbounds hstep hk =>
    refine ⟨0x5b, first ++ 0x2d :: (last ++ (Segment.stepText step ++ 0x5d :: rest)),
      by simp [Segment.render], rfl, ?_⟩
    rw [expandBracket, if_neg (by decide), expandLoop_render hformed, stepOf_eq_ok.mpr hstep,
      Outcome.bind_ok, expandRange_eq hbounds hk hstep.le (hsound m n text hbounds).2, Outcome.bind_ok]

/-- What stands at a bracket is a segment, or is refused. -/
theorem exists_segment (hc : isOpening c = true)
    (h : ∀ message, expandBracket res c s ≠ .thrown message) :
    ∃ (seg : Segment) (rest : Bytes), c :: s = seg.render ++ rest ∧ seg.Formed ∧
      (seg.Sound → ∃ alts, seg.Denotes alts) := by
  by_cases hchoice : c = 0x7b
  · subst hchoice
    rw [expandBracket, if_pos rfl] at h
    by_cases hend : 0x7d ∈ s
    · obtain ⟨body, rest, rfl, hbody⟩ := List.eq_append_cons_of_mem hend
      exact ⟨.choice body, rest, by simp [Segment.render], hbody, fun _ => ⟨_, .choice body⟩⟩
    · exact absurd (if_pos hend) (h _)
  obtain rfl : c = 0x5b := (of_decide_eq_true hc).resolve_left hchoice
  rw [expandBracket, if_neg hchoice] at h
  obtain ⟨first, last, step, rest, hformed, rfl⟩ := exists_loop h
  refine ⟨.loop first last step, rest, by simp [Segment.render], hformed, fun hsound => ?_⟩
  rw [expandLoop_render hformed] at h
  rcases hstep : stepOf step with k | m | -
  · rw [hstep, Outcome.bind_ok] at h
    obtain ⟨m, n, text, hbounds⟩ : ∃ m n text, Bounds first last m n text :=
      exists_bounds fun message hthrown => h message (by rw [hthrown]; rfl)
    have hk := stepOf_eq_ok.mp hstep
    exact ⟨_, .loop first last step m n k text hbounds hk fun hle =>
      (hsound m n text hbounds).1 k hk hle⟩
  · rw [hstep] at h
    exact absurd rfl (h _)
  · exact absurd hstep (stepOf_ne_undefined step)

/-! ## Patterns -/

theorem length_lt_render (seg : Segment) (rest : Bytes) :
    rest.length < (seg.render ++ rest).length := by
  cases seg <;> simp [Segment.render] <;> omega

theorem dropWhile_append_opening (hlit : Literal lit) (hc : isOpening c = true) (s : Bytes) :
    (lit ++ c :: s).dropWhile (fun c => !isOpening c) = c :: s :=
  Util.dropWhile_append_of_head (fun x hx => by rw [hlit x hx]; rfl)
    fun x hx => Option.some.inj hx ▸ by rw [hc]; rfl

/-- One pass takes the text before a bracket and the bracket. -/
theorem expandFrom_bracket (hlit : Literal lit) (hc : isOpening c = true) (fuel : Nat)
    (res : List Bytes) (s : Bytes) : expandFrom (fuel + 1) res (lit ++ c :: s) =
      (expandBracket (appendAll res [lit]) c s).bind fun p => expandFrom fuel p.1 p.2 := by
  rw [expandFrom, dropWhile_append_opening hlit hc, until_append hlit hc]
  rfl

theorem expandFrom_literal (hlit : Literal lit) (fuel : Nat) (res : List Bytes) :
    expandFrom (fuel + 1) res lit = .ok (appendAll res [lit]) := by
  have hdrop : lit.dropWhile (fun c => !isOpening c) = [] :=
    List.dropWhile_eq_nil_iff.mpr fun x hx => by rw [hlit x hx]; rfl
  rw [expandFrom, until_of_not hlit, hdrop]

/-- The passes go through the segments of the pattern. -/
theorem expandFrom_eq {fuel : Nat} {lists : List (List Bytes)} (h : Expansion s lists)
    (hsound : ∀ seg, Reached s seg → seg.Sound) (hfuel : s.length < fuel) (res : List Bytes) :
    expandFrom fuel res s = .ok (appendAll res (product lists)) := by
  induction h generalizing fuel res with
  | last lit hlit =>
    obtain ⟨fuel, rfl⟩ := Nat.exists_eq_succ_of_ne_zero (Nat.ne_zero_of_lt hfuel)
    rw [expandFrom_literal hlit]
    simp [product]
  | segment lit seg alts rest lists hlit hformed hdenotes _ ih =>
    obtain ⟨fuel, rfl⟩ := Nat.exists_eq_succ_of_ne_zero (Nat.ne_zero_of_lt hfuel)
    obtain ⟨c, s, heq, hc, hbracket⟩ := expandBracket_render hformed hdenotes
      (hsound seg (.here lit seg rest hlit hformed)) (appendAll res [lit]) rest
    have hrest : rest.length < fuel := by
      have hlt := length_lt_render seg rest
      rw [List.length_append] at hfuel
      omega
    rw [heq, expandFrom_bracket hlit hc, hbracket, Outcome.bind_ok,
      ih (fun seg' h => hsound seg' (.later lit seg alts rest seg' hlit hformed hdenotes h)) hrest,
      appendAll_product, appendAll_product]

/-- A pattern that is not refused has segments. -/
theorem exists_expansion {fuel : Nat} (hsound : ∀ seg, Reached s seg → seg.Sound)
    (hfuel : s.length < fuel) (h : ∀ message, expandFrom fuel res s ≠ .thrown message) :
    ∃ lists, Expansion s lists := by
  induction fuel generalizing s res with
  | zero => exact nomatch hfuel
  | succ fuel ih =>
    obtain ⟨lit, tail, rfl, hlit, htail⟩ : ∃ lit tail, s = lit ++ tail ∧ Literal lit ∧
        ∀ c ∈ tail.head?, isOpening c = true := by
      refine ⟨_, _, (List.takeWhile_append_dropWhile (p := fun c => !isOpening c)).symm, ?_, ?_⟩
      · exact fun c hc => by simpa using List.mem_takeWhile_imp hc
      · intro c hc
        have := List.head?_dropWhile_not (fun c => !isOpening c) s
        rw [Option.mem_def] at hc
        rw [hc] at this
        simpa using this
    obtain - | ⟨c, s⟩ := tail
    · exact ⟨_, by simpa using Expansion.last lit hlit⟩
    have hc := htail c rfl
    rw [expandFrom_bracket hlit hc] at h
    obtain ⟨seg, rest, heq, hformed, hdenotes⟩ : ∃ (seg : Segment) (rest : Bytes),
        c :: s = seg.render ++ rest ∧ seg.Formed ∧ (seg.Sound → ∃ alts, seg.Denotes alts) :=
      exists_segment hc fun message hthrown => h message (by rw [hthrown]; rfl)
    rw [heq] at hsound hfuel ⊢
    have hseg := hsound seg (.here lit seg rest hlit hformed)
    obtain ⟨alts, hdenotes⟩ := hdenotes hseg
    obtain ⟨c', s', heq', -, hbracket⟩ :=
      expandBracket_render hformed hdenotes hseg (appendAll res [lit]) rest
    obtain ⟨rfl, rfl⟩ := List.cons.inj (heq.trans heq')
    rw [hbracket, Outcome.bind_ok] at h
    have hrest : rest.length < fuel := by
      have hlt := length_lt_render seg rest
      rw [List.length_append] at hfuel
      omega
    obtain ⟨lists, hlists⟩ := ih
      (fun seg' h => hsound seg' (.later lit seg alts rest seg' hlit hformed hdenotes h)) hrest h
    exact ⟨_, .segment lit seg alts rest lists hlit hformed hdenotes hlists⟩

/-- `paramed_string::expand`: what is not refused is the product of the alternatives, and one empty
string is not returned. -/
theorem expand_eq_ok_iff (s : Bytes) (h : ∀ seg, Reached s seg → seg.Sound) :
    expand s ≠ .undefined ∧ ∀ out, expand s = .ok out ↔
      ∃ lists, Expansion s lists ∧ out = if product lists = [[]] then [] else product lists := by
  have heq {lists : List (List Bytes)} (hlists : Expansion s lists) :
      expand s = .ok (if product lists = [[]] then [] else product lists) := by
    rw [expand, expandFrom_eq hlists h (Nat.lt_succ_self _), Outcome.bind_ok]
    simp [appendAll]
  have hex (hne : ∀ message, expand s ≠ .thrown message) : ∃ lists, Expansion s lists :=
    exists_expansion h (Nat.lt_succ_self _) fun message hthrown =>
      hne message (by rw [expand, hthrown]; rfl)
  refine ⟨fun hundef => ?_, fun out => ⟨fun hok => ?_, ?_⟩⟩
  · obtain ⟨lists, hlists⟩ := hex fun message hthrown => nomatch hundef.symm.trans hthrown
    exact nomatch hundef.symm.trans (heq hlists)
  · obtain ⟨lists, hlists⟩ := hex fun message hthrown => nomatch hok.symm.trans hthrown
    exact ⟨lists, hlists, Outcome.ok.inj (hok.symm.trans (heq hlists))⟩
  · rintro ⟨lists, hlists, rfl⟩
    exact heq hlists

/-- Short patterns in which no step of zero is written can be expanded. -/
theorem sound_of_short {seg : Segment} (h : Reached s seg)
    (hstep : ∀ t ∈ s.tails, t.head? = some 0x3a →
      parseUIntNoThrow (until_ (· = 0x5d) t.tail) ≠ some 0)
    (hlen : s.length < 2048) : seg.Sound := by
  induction h with
  | here lit seg rest _ hformed =>
    cases seg with
    | choice => trivial
    | loop first last step =>
      intro m n text _
      refine ⟨fun k hk _ hzero => ?_, fun _ _ => ?_⟩
      · subst hzero
        cases hk with
        | written text k hparse =>
          -- the step ends at the bracket that closes the loop
          refine hstep (0x3a :: (text ++ 0x5d :: rest))
            ((List.mem_tails _ _).mpr ⟨lit ++ 0x5b :: (first ++ 0x2d :: last), ?_⟩) rfl ?_
          · simp [Segment.render, Segment.stepText]
          · have hclose : 0x5d ∉ text := fun hmem => hformed.1 (by simp [Segment.stepText, hmem])
            rwa [List.tail_cons, until_append (ne_of_notMem hclose) (by decide)]
      · simp [Segment.render] at hlen
        omega
  | later lit seg alts rest seg' _ _ _ _ ih =>
    refine ih (fun t ht => hstep t ?_) ?_
    · rw [List.mem_tails] at ht ⊢
      exact ht.trans ⟨lit ++ seg.render, by simp⟩
    · simp at hlen
      omega

theorem expand_eq_ok_iff_witness : let s := "{a, b}/[08-10]-[A-F:2]".toUTF8.toList
    (expand s ≠ .undefined ∧ ∀ out, expand s = .ok out ↔
      ∃ lists, Expansion s lists ∧ out = if product lists = [[]] then [] else product lists) ∧
    expand s = .ok (["a/08-A", "a/08-C", "a/08-E", "a/09-A", "a/09-C", "a/09-E", "a/10-A", "a/10-C",
      "a/10-E", "b/08-A", "b/08-C", "b/08-E", "b/09-A", "b/09-C", "b/09-E", "b/10-A", "b/10-C",
      "b/10-E"].map (·.toUTF8.toList)) :=
  ⟨expand_eq_ok_iff _ fun _ h => sound_of_short h (by decide +kernel) (by decide +kernel),
    by decide +kernel⟩

/-- A loop from nine to zero has no number, but the string is returned without one. -/
theorem expand_counterexample :
    ¬ ∀ (seg : Segment) (rest : Bytes), seg.Formed → Literal rest →
      ∀ out, expand (seg.render ++ rest) = .ok out →
        ∀ s ∈ out, ∃ text, seg.Admits text ∧ s = text ++ rest := by
  intro h
  obtain ⟨text, hadmits, -⟩ := h (.loop [0x39] [0x30] none) [0x78]
    (by simp [Segment.Formed, Segment.stepText]) (by simp [Literal, isOpening]) [[0x78]] (by decide +kernel)
    [0x78] (.head _)
  cases hadmits with
  | loop _ _ _ m n s k _ hbounds _ hle =>
    cases hbounds with
    | numbers =>
      have hnine : decimal [0x39] = 9 := rfl
      have hzero : decimal [0x30] = 0 := rfl
      omega
    | letters zero hzero =>
      obtain ⟨-, hlow, -⟩ | ⟨-, hup, -⟩ := hzero
      · exact nomatch hlow
      · exact nomatch hup

end FluxCore.ParamedString
