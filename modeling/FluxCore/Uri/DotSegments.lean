import FluxCore.Torrent.Names

/-!
# Removing dot segments

A path is a list of components between slashes. Empty components and `.` are dropped, and `..` removes
the component before it that is left. A slash at the start stays, and so does one at the end, where a
final `.` or `..` counts as one.
-/

namespace FluxCore.Uri

open Utp (Bytes)
open Torrent (slash dot dotDot strjoin)

/-- A component that is kept. -/
def Ordinary (c : Bytes) : Prop := c ≠ [] ∧ c ≠ dot ∧ c ≠ dotDot

instance (c : Bytes) : Decidable (Ordinary c) := inferInstanceAs (Decidable (_ ∧ _))

/-- The components that are left behind one more. -/
def enter (cs : List Bytes) (c : Bytes) : List Bytes :=
  if Ordinary c then cs ++ [c] else if c = dotDot then cs.dropLast else cs

/-- A path of ordinary components with or without a slash at either end. -/
def assemble (lead : Bool) (cs : List Bytes) (trail : Bool) : Bytes :=
  (if lead then [slash] else []) ++ strjoin cs ++ (if trail then [slash] else [])

/-- The specification of the removal of dot segments. -/
def removeDotSegments (path : Bytes) : Bytes :=
  let components := path.splitOn slash
  let cs := components.foldl enter []
  assemble (path.head? = some slash) cs (cs ≠ [] ∧ ¬Ordinary (components.getLastD []))

/-- A path without dot segments and empty components. -/
structure Clean (path : Bytes) : Prop where
  parts : ∃ lead cs trail, path = assemble lead cs trail ∧ (cs = [] → trail = false) ∧
    ∀ c ∈ cs, Ordinary c ∧ slash ∉ c

section

variable {cs : List Bytes} {c path : Bytes} {lead trail : Bool}

theorem enter_ordinary (hc : Ordinary c) (cs : List Bytes) : enter cs c = cs ++ [c] := if_pos hc

theorem enter_dotDot (cs : List Bytes) : enter cs dotDot = cs.dropLast := by
  rw [enter, if_neg fun h => h.2.2 rfl, if_pos rfl]

theorem enter_dropped (h : c = [] ∨ c = dot) (cs : List Bytes) : enter cs c = cs := by
  obtain rfl | rfl := h <;> rfl

/-- What is left are ordinary components. -/
theorem mem_foldl_enter {P : Bytes → Prop} {components : List Bytes} (h : ∀ c ∈ components, P c)
    (hcs : ∀ c ∈ cs, Ordinary c ∧ P c) : ∀ c ∈ components.foldl enter cs, Ordinary c ∧ P c := by
  induction components generalizing cs with
  | nil => exact hcs
  | cons c components ih =>
    obtain ⟨hc, h⟩ := List.forall_mem_cons.mp h
    refine ih h fun d hd => ?_
    unfold enter at hd
    split at hd
    next hord =>
      obtain hd | hd := List.mem_append.mp hd
      · exact hcs d hd
      · exact List.mem_singleton.mp hd ▸ ⟨hord, hc⟩
    · split at hd
      · exact hcs d (List.dropLast_subset _ hd)
      · exact hcs d hd

theorem mem_strjoin {a : UInt8} (cs : List Bytes) :
    (a ∈ strjoin cs → a = slash ∨ ∃ c ∈ cs, a ∈ c) ∧ ∀ c ∈ cs, a ∈ c → a ∈ strjoin cs := by
  induction cs with
  | nil => exact ⟨nofun, nofun⟩
  | cons c cs ih =>
    rcases cs with _ | ⟨d, cs⟩
    · have hjoin : strjoin [c] = c := by simp [strjoin]
      rw [hjoin]
      exact ⟨fun ha => .inr ⟨c, .head _, ha⟩, fun d hd ha => List.mem_singleton.mp hd ▸ ha⟩
    · have hjoin : strjoin (c :: d :: cs) = c ++ slash :: strjoin (d :: cs) := by simp [strjoin]
      rw [hjoin]
      constructor
      · intro ha
        obtain ha | ha := List.mem_append.mp ha
        · exact .inr ⟨c, .head _, ha⟩
        · obtain rfl | ha := List.mem_cons.mp ha
          · exact .inl rfl
          · obtain h | ⟨e, he, ha⟩ := ih.1 ha
            · exact .inl h
            · exact .inr ⟨e, .tail _ he, ha⟩
      · rintro e (_ | ⟨_, he⟩) ha
        · exact List.mem_append_left _ ha
        · exact List.mem_append_right _ (.tail _ (ih.2 e he ha))

theorem foldl_enter_ordinary (hcs : ∀ c ∈ cs, Ordinary c) (before : List Bytes) :
    cs.foldl enter before = before ++ cs := by
  induction cs generalizing before with
  | nil => rw [List.foldl_nil, List.append_nil]
  | cons c cs ih =>
    obtain ⟨hc, hcs⟩ := List.forall_mem_cons.mp hcs
    rw [List.foldl_cons, enter_ordinary hc, ih hcs, List.append_assoc, List.singleton_append]

variable (lead trail) in
/-- The components of a path that is put together, with the empty ones at its ends. -/
theorem splitOn_assemble (h : ∀ c ∈ cs, slash ∉ c) (hne : cs ≠ []) :
    (assemble lead cs trail).splitOn slash =
      (if lead then [[]] else []) ++ cs ++ (if trail then [[]] else []) := by
  obtain ⟨c, cs, rfl⟩ := List.exists_cons_of_ne_nil hne
  have hjoin : (strjoin (c :: cs)).splitOn slash = c :: cs := List.splitOn_intercalate slash h hne
  have htrail : (strjoin (c :: cs) ++ (if trail then [slash] else [])).splitOn slash =
      (c :: cs) ++ (if trail then [[]] else []) := by
    cases trail with
    | false => simp only [Bool.false_eq_true, if_false, List.append_nil, hjoin]
    | true => simp only [if_true, List.splitOn_append_cons_self, hjoin]; rfl
  rw [assemble, List.append_assoc, List.append_assoc]
  cases lead with
  | false => exact htrail
  | true =>
    have hslash := List.splitOn_append_cons_self_of_not_mem (List.not_mem_nil (a := slash))
      (strjoin (c :: cs) ++ if trail then [slash] else [])
    exact hslash.trans (congrArg _ htrail)

theorem clean_removeDotSegments (path : Bytes) : Clean (removeDotSegments path) :=
  ⟨_, _, _, rfl, fun h => by simp [h], mem_foldl_enter
    (fun _ hc => Components.notMem_of_mem_splitOn hc) nofun⟩

variable (lead trail) in
theorem head_assemble (h : ∀ c ∈ cs, Ordinary c ∧ slash ∉ c) (hne : cs ≠ []) :
    decide ((assemble lead cs trail).head? = some slash) = lead := by
  cases lead with
  | true => rfl
  | false =>
    obtain ⟨c, cs, rfl⟩ := List.exists_cons_of_ne_nil hne
    obtain ⟨⟨hord, hslash⟩, -⟩ := List.forall_mem_cons.mp h
    obtain ⟨a, c, rfl⟩ := List.exists_cons_of_ne_nil hord.1
    have hhead : (assemble false ((a :: c) :: cs) trail).head? = some a := by
      cases cs <;> simp [assemble, strjoin]
    rw [hhead]
    exact decide_eq_false fun heq => hslash (Option.some.inj heq ▸ .head _)

/-- Only slashes are added. -/
theorem mem_removeDotSegments {a : UInt8} (ha : a ∈ removeDotSegments path) :
    a = slash ∨ a ∈ path := by
  rw [removeDotSegments, assemble, List.mem_append, List.mem_append] at ha
  obtain (ha | ha) | ha := ha
  · split at ha
    · exact .inl (List.mem_singleton.mp ha)
    · exact nomatch ha
  · obtain ha | ⟨c, hc, ha⟩ := (mem_strjoin _).1 ha
    · exact .inl ha
    · have hmem := (mem_foldl_enter (P := (· ∈ path.splitOn slash)) (fun _ h => h)
        (by exact nofun) c hc).2
      have := (mem_strjoin _).2 c hmem ha
      rw [strjoin, List.intercalate_splitOn] at this
      exact .inr this
  · split at ha
    · exact .inl (List.mem_singleton.mp ha)
    · exact nomatch ha

/-- Behind the slash at the start of a clean path there is no second one. -/
theorem head_tail_of_clean (h : Clean path) (hhead : path.head? = some slash) :
    ∃ t, path = slash :: t ∧ t.head? ≠ some slash := by
  obtain ⟨lead, cs, trail, rfl, htrail, hcs⟩ := h.parts
  by_cases hne : cs = []
  · obtain rfl := hne
    obtain rfl := htrail rfl
    cases lead with
    | true => exact ⟨[], rfl, nofun⟩
    | false => exact nomatch hhead
  · have hlead := head_assemble lead trail hcs hne
    rw [hhead] at hlead
    obtain rfl : true = lead := (decide_eq_true rfl).symm.trans hlead
    refine ⟨assemble false cs trail, by simp [assemble], fun heq => ?_⟩
    have hfalse := head_assemble false trail hcs hne
    rw [heq] at hfalse
    exact absurd hfalse (by decide)

variable (lead) in
/-- The components of a clean path are left. -/
theorem foldl_enter_assemble (htrail : cs = [] → trail = false)
    (h : ∀ c ∈ cs, Ordinary c ∧ slash ∉ c) :
    ((assemble lead cs trail).splitOn slash).foldl enter [] = cs := by
  by_cases hne : cs = []
  · obtain rfl := hne
    obtain rfl := htrail rfl
    cases lead <;> decide +kernel
  · have hsplit := splitOn_assemble lead trail (fun c hc => (h c hc).2) hne
    have hord := foldl_enter_ordinary (fun c hc => (h c hc).1) []
    rw [hsplit, List.foldl_append, List.foldl_append]
    cases lead <;> cases trail <;>
      simp only [if_true, if_false, Bool.false_eq_true, List.foldl_nil, List.foldl_cons,
        enter_dropped (.inl rfl), hord, List.nil_append]

/-- A clean path stays as it is. -/
theorem removeDotSegments_eq_self (h : Clean path) : removeDotSegments path = path := by
  obtain ⟨lead, cs, trail, rfl, htrail, hcs⟩ := h.parts
  by_cases hne : cs = []
  · obtain rfl := hne
    obtain rfl := htrail rfl
    cases lead <;> decide +kernel
  · have hsplit := splitOn_assemble lead trail (fun c hc => (hcs c hc).2) hne
    have hleft := foldl_enter_assemble lead htrail hcs
    have hlast : decide (cs ≠ [] ∧ ¬Ordinary (((assemble lead cs trail).splitOn slash).getLastD [])) =
        trail := by
      rw [hsplit]
      cases trail with
      | true =>
        rw [if_pos rfl, List.getLastD_eq_getLast?, List.getLast?_concat]
        exact decide_eq_true ⟨hne, by decide⟩
      | false =>
        have hlast := (hcs _ (List.getLast_mem hne)).1
        rw [if_neg Bool.false_ne_true, List.append_nil, List.getLastD_eq_getLast?,
          List.getLast?_append_of_ne_nil _ hne, List.getLast?_eq_some_getLast hne]
        exact decide_eq_false fun hand => hand.2 hlast
    rw [removeDotSegments, hleft, hlast, head_assemble lead trail hcs hne]

/-- The components that are left of a path are those of its normal form. -/
theorem foldl_enter_removeDotSegments (path : Bytes) :
    ((removeDotSegments path).splitOn slash).foldl enter [] =
      (path.splitOn slash).foldl enter [] := by
  rw [removeDotSegments]
  exact foldl_enter_assemble _ (fun h => by simp [h])
    (mem_foldl_enter (fun _ hc => Components.notMem_of_mem_splitOn hc) nofun)

/-- Components that are not empty have as many slashes between them as there are, less one. -/
theorem length_strjoin_ge (h : ∀ c ∈ cs, c ≠ []) : 2 * cs.length ≤ (strjoin cs).length + 1 := by
  induction cs with
  | nil => exact Nat.zero_le _
  | cons c cs ih =>
    obtain ⟨hc, h⟩ := List.forall_mem_cons.mp h
    have hpos := List.length_pos_of_ne_nil hc
    have hrest := ih h
    cases cs with
    | nil =>
      have hjoin : strjoin [c] = c := by simp [strjoin]
      rw [hjoin, List.length_singleton]
      omega
    | cons d cs =>
      have hjoin : strjoin (c :: d :: cs) = c ++ slash :: strjoin (d :: cs) := by simp [strjoin]
      rw [hjoin]
      simp only [List.length_append, List.length_cons] at hrest ⊢
      omega

/-- A path has room for the components that are left of it. -/
theorem length_removeDotSegments_ge (path : Bytes) :
    (if path.head? = some slash then 1 else 0) +
        2 * ((path.splitOn slash).foldl enter []).length ≤ (removeDotSegments path).length + 1 := by
  have hcs : ∀ c ∈ (path.splitOn slash).foldl enter [], Ordinary c ∧ True :=
    mem_foldl_enter (fun _ _ => trivial) nofun
  have hjoin := length_strjoin_ge fun c hc => (hcs c hc).1.1
  rw [removeDotSegments, assemble, List.length_append, List.length_append]
  by_cases hlead : path.head? = some slash
  · simp only [hlead, decide_true, if_true, List.length_singleton]
    omega
  · simp only [hlead, decide_false, if_false, List.length_nil, Bool.false_eq_true]
    omega

/-- Removing dot segments a second time changes nothing. -/
theorem removeDotSegments_idem (path : Bytes) :
    removeDotSegments (removeDotSegments path) = removeDotSegments path :=
  removeDotSegments_eq_self (clean_removeDotSegments path)

end

end FluxCore.Uri
