import FluxCore.Uri.DotSegments
import FluxCore.Uri.Uri

/-!
# Normalising paths

`normalizePath` goes over the path once and keeps a stack of offsets, which are the starts and the
ends of what remains, each end behind the slash. Then it moves what remains to the front, in place.
-/

namespace FluxCore.Uri

open Utp (Bytes)
open Torrent (slash dot dotDot strjoin)

/-! ## The function -/

/-- The character `'.'`. -/
abbrev period : UInt8 := 0x2e

inductive NPath where
  | start
  | slash
  | sdot
  | ddot
  | pathcomp
  deriving DecidableEq, Repr

structure NPathScan where
  state : NPath
  range : List Int
  startWithSlash : Bool
  deriving DecidableEq, Repr

/-- An offset becomes an `int`. -/
def pushBack (range : List Int) (off : Nat) : List Int := range ++ [Int.bmod off (2 ^ 32)]

/-- Up to three offsets are dropped: the start of `..`, and the start and the end before it. -/
def popThree (range : List Int) : List Int := range.dropLast.dropLast.dropLast

/-- A turn of the loop. -/
def stepPath (m : NPathScan) (p : Nat) (c : UInt8) : NPathScan :=
  match m.state with
  | .start =>
    if c = period then { m with state := .sdot, range := pushBack m.range p }
    else if c = slash then { m with state := .slash, startWithSlash := true }
    else { m with state := .pathcomp, range := pushBack m.range p }
  | .slash =>
    if c = period then { m with state := .sdot, range := pushBack m.range p }
    else if c = slash then m
    else { m with state := .pathcomp, range := pushBack m.range p }
  | .sdot =>
    if c = period then { m with state := .ddot }
    else if c = slash then { m with state := .slash, range := m.range.dropLast }
    else { m with state := .pathcomp }
  | .ddot =>
    if c = slash then { m with state := .slash, range := popThree m.range }
    else { m with state := .pathcomp }
  | .pathcomp =>
    if c = slash then { m with state := .slash, range := pushBack m.range (p + 1) } else m

def scanPath (m : NPathScan) (p : Nat) : Bytes → NPathScan
  | [] => m
  | c :: s => scanPath (stepPath m p c) (p + 1) s

/-- What the end of a path of the length `last` does. -/
def finishPath (m : NPathScan) (last : Nat) : List Int :=
  match m.state with
  | .sdot => m.range.dropLast
  | .ddot => popThree m.range
  | .pathcomp => pushBack m.range last
  | _ => m.range

/-- The pieces between the offsets are moved to `out`. It is `none` where an iterator would be
outside the path. -/
def movePieces (path : Bytes) (out : Nat) : List Int → Option (Bytes × Nat)
  | a :: b :: range =>
    if 0 ≤ a ∧ a ≤ b ∧ b ≤ path.length then
      let a := a.toNat
      let b := b.toNat
      if a = out then movePieces path b range
      else movePieces (path.take out ++ slice path ⟨a, b - a⟩ ++ path.drop (out + (b - a)))
        (out + (b - a)) range
    else none
  | [_] => none
  | [] => some (path, out)

/-- The index of the last loop is an `int`, and so is the number of offsets that it is compared
with. -/
def inBound (range : List Int) : List Int :=
  range.take (Int.bmod range.length (2 ^ 32)).toNat

/-- What follows the loop. -/
def rewritePath (path : Bytes) (m : NPathScan) : Option Bytes :=
  (movePieces path (if m.startWithSlash then 1 else 0) (inBound (finishPath m path.length))).map
    fun (path, out) => path.take out

def normalizePath (path : Bytes) : Option Bytes :=
  rewritePath path (scanPath ⟨.start, [], false⟩ 0 path)

/-! ## The stack of offsets -/

section

variable {b : Bool} {r : List Int} {p : Nat} {c s : Bytes}

/-- The state behind the characters of a component. -/
def stateOf (c : Bytes) : NPath :=
  if c = [] then .slash else if c = dot then .sdot else if c = dotDot then .ddot else .pathcomp

theorem scanPath_append (m : NPathScan) (p : Nat) (s t : Bytes) :
    scanPath m p (s ++ t) = scanPath (scanPath m p s) (p + s.length) t := by
  induction s generalizing m p with
  | nil => rfl
  | cons c s ih =>
    rw [List.cons_append, scanPath, scanPath, ih, List.length_cons, Nat.add_right_comm, Nat.add_assoc]

theorem scanPath_pathcomp (hc : slash ∉ c) : scanPath ⟨.pathcomp, r, b⟩ p c = ⟨.pathcomp, r, b⟩ := by
  induction c generalizing p with
  | nil => rfl
  | cons a c ih =>
    obtain ⟨ha, hc⟩ := ne_of_not_mem_cons hc
    have hstep : stepPath ⟨.pathcomp, r, b⟩ p a = ⟨.pathcomp, r, b⟩ := if_neg ha
    rw [scanPath, hstep, ih hc]

/-- The characters of a component push its start. -/
theorem scanPath_component (hc : slash ∉ c) : scanPath ⟨.slash, r, b⟩ p c =
    ⟨stateOf c, if c = [] then r else pushBack r p, b⟩ := by
  rcases c with _ | ⟨x, c⟩
  · rfl
  obtain ⟨hx, htail⟩ := ne_of_not_mem_cons hc
  by_cases hdot : x = period
  · subst hdot
    rcases c with _ | ⟨y, c⟩
    · rfl
    obtain ⟨hy, hrest⟩ := ne_of_not_mem_cons htail
    by_cases hdots : y = period
    · subst hdots
      rcases c with _ | ⟨z, c⟩
      · rfl
      obtain ⟨hz, hlast⟩ := ne_of_not_mem_cons hrest
      have hstep : stepPath ⟨.ddot, pushBack r p, b⟩ (p + 1 + 1) z =
        ⟨.pathcomp, pushBack r p, b⟩ := if_neg hz
      change scanPath (stepPath ⟨.ddot, pushBack r p, b⟩ (p + 1 + 1) z) _ c = _
      rw [hstep, scanPath_pathcomp hlast]
      simp [stateOf, dot, dotDot]
    · have hstep : stepPath ⟨.sdot, pushBack r p, b⟩ (p + 1) y =
          ⟨.pathcomp, pushBack r p, b⟩ := (if_neg hdots).trans (if_neg hy)
      change scanPath (stepPath ⟨.sdot, pushBack r p, b⟩ (p + 1) y) _ c = _
      rw [hstep, scanPath_pathcomp hrest]
      simp [stateOf, dot, dotDot, hdots]
  · have hstep : stepPath ⟨.slash, r, b⟩ p x = ⟨.pathcomp, pushBack r p, b⟩ :=
      (if_neg hdot).trans (if_neg hx)
    rw [scanPath, hstep, scanPath_pathcomp htail]
    simp [stateOf, dot, dotDot, hdot]

/-- The offsets behind a component and a slash. -/
def enterRange (r : List Int) (p : Nat) (c : Bytes) : List Int :=
  if Ordinary c then pushBack (pushBack r p) (p + c.length + 1)
  else if c = dotDot then r.dropLast.dropLast else r

theorem dropLast_pushBack (r : List Int) (p : Nat) : (pushBack r p).dropLast = r :=
  List.dropLast_concat

theorem scanPath_slash (hc : slash ∉ c) : scanPath ⟨.slash, r, b⟩ p (c ++ slash :: s) =
    scanPath ⟨.slash, enterRange r p c, b⟩ (p + c.length + 1) s := by
  rw [scanPath_append, scanPath_component hc, scanPath]
  congr 1
  by_cases hnil : c = []
  · obtain rfl := hnil
    rfl
  by_cases hdot : c = dot
  · obtain rfl := hdot
    change NPathScan.mk .slash (pushBack r p).dropLast b = _
    rw [dropLast_pushBack]
    rfl
  by_cases hdots : c = dotDot
  · obtain rfl := hdots
    change NPathScan.mk .slash (popThree (pushBack r p)) b = _
    rw [popThree, dropLast_pushBack]
    rfl
  · have hstate : stateOf c = .pathcomp := (if_neg hnil).trans ((if_neg hdot).trans (if_neg hdots))
    rw [hstate, if_neg hnil, enterRange, if_pos ⟨hnil, hdot, hdots⟩]
    rfl

/-- The offsets at the end of a path, behind its last component. -/
def lastRange (r : List Int) (p : Nat) (c : Bytes) : List Int :=
  if Ordinary c then pushBack (pushBack r p) (p + c.length)
  else if c = dotDot then r.dropLast.dropLast else r

theorem finishPath_component (hc : slash ∉ c) :
    finishPath (scanPath ⟨.slash, r, b⟩ p c) (p + c.length) = lastRange r p c := by
  rw [scanPath_component hc]
  by_cases hnil : c = []
  · obtain rfl := hnil
    rfl
  by_cases hdot : c = dot
  · obtain rfl := hdot
    exact dropLast_pushBack r p
  by_cases hdots : c = dotDot
  · obtain rfl := hdots
    change popThree (pushBack r p) = _
    rw [popThree, dropLast_pushBack]
    rfl
  · have hstate : stateOf c = .pathcomp := (if_neg hnil).trans ((if_neg hdot).trans (if_neg hdots))
    rw [hstate, if_neg hnil, lastRange, if_pos ⟨hnil, hdot, hdots⟩]
    rfl

/-! ## What the offsets keep -/

/-- The offsets of fields, as they are stored. -/
def offsets (fs : List Field) : List Int :=
  fs.flatMap fun f => [Int.bmod f.off (2 ^ 32), Int.bmod (f.off + f.len : Nat) (2 ^ 32)]

/-- The fields that are left behind a component, of which `n` bytes are kept. -/
def enterField (fs : List Field) (p n : Nat) (c : Bytes) : List Field :=
  if Ordinary c then fs ++ [⟨p, n⟩] else if c = dotDot then fs.dropLast else fs

/-- The fields that are left of components that begin at `p`. -/
def placesFrom : Nat → List Field → List Bytes → List Field
  | _, fs, [] => fs
  | p, fs, [c] => enterField fs p c.length c
  | p, fs, c :: d :: cs =>
    placesFrom (p + c.length + 1) (enterField fs p (c.length + 1) c) (d :: cs)

/-- Where the components of a path are that are left, each with the slash behind it. -/
def places (path : Bytes) : List Field := placesFrom 0 [] (path.splitOn slash)

/-- The fields are in order, from `lo` to `hi`. -/
def Row (hi : Nat) : Nat → List Field → Prop
  | lo, [] => lo ≤ hi
  | lo, f :: fs => lo ≤ f.off ∧ Row hi (f.off + f.len) fs

variable {lo hi n : Nat} {f : Field} {fs : List Field} {path : Bytes} {cs : List Bytes}

namespace Row

theorem le (h : Row hi lo fs) : lo ≤ hi := by
  induction fs generalizing lo with
  | nil => exact h
  | cons f fs ih => exact h.1.trans ((Nat.le_add_right ..).trans (ih h.2))

theorem le_of_mem (h : Row hi lo fs) (hf : f ∈ fs) : f.off + f.len ≤ hi := by
  induction fs generalizing lo with
  | nil => exact absurd hf List.not_mem_nil
  | cons g fs ih =>
    obtain rfl | hf := List.mem_cons.mp hf
    · exact h.2.le
    · exact ih h.2 hf

theorem mono (h : Row hi lo fs) (hle : hi ≤ n) : Row n lo fs := by
  induction fs generalizing lo with
  | nil => exact h.trans hle
  | cons f fs ih => exact ⟨h.1, ih h.2⟩

theorem concat (h : Row hi lo fs) (n : Nat) : Row (hi + n) lo (fs ++ [⟨hi, n⟩]) := by
  induction fs generalizing lo with
  | nil => exact ⟨h, le_rfl⟩
  | cons f fs ih => exact ⟨h.1, ih h.2⟩

theorem dropLast (h : Row hi lo fs) : Row hi lo fs.dropLast := by
  induction fs generalizing lo with
  | nil => exact h
  | cons f fs ih =>
    match fs with
    | [] => exact h.1.trans ((Nat.le_add_right ..).trans h.2)
    | g :: fs => exact ⟨h.1, ih h.2⟩

/-- The pieces do not reach farther than the fields. -/
theorem length_lt (h : Row hi lo fs) (hlo : lo < n) (hfs : ∀ f ∈ fs, f.off + f.len < n) :
    lo + (fs.map (slice path)).flatten.length < n := by
  induction fs generalizing lo with
  | nil => exact hlo
  | cons f fs ih =>
    obtain ⟨hf, hfs⟩ := List.forall_mem_cons.mp hfs
    have hrest := ih h.2 hf hfs
    have hle := h.1
    have hslice : (slice path f).length ≤ f.len := List.length_take_le _ _
    rw [List.map_cons, List.flatten_cons, List.length_append]
    omega

end Row

theorem offsets_concat (fs : List Field) (p n : Nat) :
    pushBack (pushBack (offsets fs) p) (p + n) = offsets (fs ++ [⟨p, n⟩]) := by
  rw [pushBack, pushBack, offsets, offsets, List.flatMap_append, List.append_assoc]
  rfl

theorem offsets_dropLast (fs : List Field) :
    (offsets fs).dropLast.dropLast = offsets fs.dropLast := by
  obtain rfl | ⟨fs, f, rfl⟩ := List.eq_nil_or_concat' fs
  · rfl
  · rw [List.dropLast_concat, offsets, List.flatMap_append, List.flatMap_singleton,
      List.dropLast_append_cons]
    exact List.dropLast_concat

theorem length_offsets (fs : List Field) : (offsets fs).length = 2 * fs.length := by
  induction fs with
  | nil => rfl
  | cons f fs ih =>
    rw [offsets, List.flatMap_cons, ← offsets, List.length_append, ih]
    simp only [List.length_cons, List.length_nil]
    omega

theorem enterRange_offsets (fs : List Field) (p : Nat) (c : Bytes) :
    enterRange (offsets fs) p c = offsets (enterField fs p (c.length + 1) c) := by
  rw [enterRange, enterField]
  split
  · rw [Nat.add_assoc, offsets_concat]
  split
  · exact offsets_dropLast fs
  · rfl

theorem lastRange_offsets (fs : List Field) (p : Nat) (c : Bytes) :
    lastRange (offsets fs) p c = offsets (enterField fs p c.length c) := by
  rw [lastRange, enterField]
  split
  · exact offsets_concat fs p c.length
  split
  · exact offsets_dropLast fs
  · rfl

theorem strjoin_cons_cons (c d : Bytes) (cs : List Bytes) :
    strjoin (c :: d :: cs) = c ++ slash :: strjoin (d :: cs) := by
  simp [strjoin]

/-- The stack behind the components holds the offsets of those that are left. -/
theorem finishPath_components {components : List Bytes} (hne : components ≠ [])
    (hslash : ∀ c ∈ components, slash ∉ c) (p : Nat) (fs : List Field) :
    let m := scanPath ⟨.slash, offsets fs, b⟩ p (strjoin components)
    finishPath m (p + (strjoin components).length) = offsets (placesFrom p fs components) ∧
      m.startWithSlash = b := by
  induction components generalizing p fs with
  | nil => exact absurd rfl hne
  | cons c components ih =>
    obtain ⟨hc, hslash⟩ := List.forall_mem_cons.mp hslash
    rcases components with _ | ⟨d, components⟩
    · have hjoin : strjoin [c] = c := by simp [strjoin]
      rw [hjoin, placesFrom, ← lastRange_offsets]
      exact ⟨finishPath_component hc, by rw [scanPath_component hc]⟩
    · have hlength : p + (c ++ slash :: strjoin (d :: components)).length =
          p + c.length + 1 + (strjoin (d :: components)).length := by
        rw [List.length_append, List.length_cons]
        omega
      rw [strjoin_cons_cons, hlength, scanPath_slash hc, enterRange_offsets, placesFrom]
      exact ih (List.cons_ne_nil d components) hslash _ _

/-- The fields are those of the pieces `cs` of a path. -/
structure Kept (path : Bytes) (lo hi : Nat) (fs : List Field) (cs : List Bytes) : Prop where
  row : Row hi lo fs
  slices : fs.map (slice path) = cs

/-- The components that are left, each with its slash. -/
def withSlash (cs : List Bytes) : List Bytes := cs.map (· ++ [slash])

/-- The pieces at the end of a path, behind its last component. -/
def lastPieces (cs : List Bytes) (c : Bytes) : List Bytes :=
  if Ordinary c then withSlash cs ++ [c] else withSlash (enter cs c)

theorem slice_at {a b : Bytes} (h : path = a ++ (c ++ b)) : slice path ⟨a.length, c.length⟩ = c := by
  rw [h, slice, List.drop_left' rfl, List.take_left' rfl]

theorem Kept.concat (h : Kept path lo hi fs cs) (hc : slice path ⟨hi, n⟩ = c) :
    Kept path lo (hi + n) (fs ++ [⟨hi, n⟩]) (cs ++ [c]) :=
  ⟨h.row.concat n, by rw [List.map_append, h.slices, List.map_singleton, hc]⟩

theorem Kept.dropLast (h : Kept path lo hi fs cs) : Kept path lo hi fs.dropLast cs.dropLast :=
  ⟨h.row.dropLast, by rw [← h.slices, List.map_dropLast]⟩

theorem Kept.mono (h : Kept path lo hi fs cs) (hle : hi ≤ n) : Kept path lo n fs cs :=
  ⟨h.row.mono hle, h.slices⟩

/-- A component that is not kept does to the fields what it does to the components. -/
theorem Kept.drop (h : Kept path lo p fs (withSlash cs)) (hc : ¬Ordinary c) :
    Kept path lo p (enterField fs p n c) (withSlash (enter cs c)) := by
  rw [enterField, if_neg hc]
  by_cases hdots : c = dotDot
  · obtain rfl := hdots
    rw [if_pos rfl, enter_dotDot, withSlash, List.map_dropLast]
    exact h.dropLast
  · rw [if_neg hdots, enter, if_neg hc, if_neg hdots]
    exact h

/-- A component and its slash do to the fields what the component does to the components. -/
theorem Kept.component {a b : Bytes} (h : Kept path lo a.length fs (withSlash cs))
    (hpath : path = a ++ (c ++ slash :: b)) :
    Kept path lo (a.length + c.length + 1) (enterField fs a.length (c.length + 1) c)
      (withSlash (enter cs c)) := by
  by_cases hc : Ordinary c
  · have hsplit : path = a ++ ((c ++ [slash]) ++ b) := by
      rw [hpath, List.append_assoc, List.singleton_append]
    have hslice : slice path ⟨a.length, c.length + 1⟩ = c ++ [slash] := by
      have := slice_at hsplit
      rwa [List.length_append] at this
    rw [enterField, if_pos hc, enter_ordinary hc, withSlash, List.map_append, Nat.add_assoc]
    exact h.concat hslice
  · exact (h.drop hc).mono (by omega)

theorem Kept.last {a : Bytes} (h : Kept path lo a.length fs (withSlash cs))
    (hpath : path = a ++ c) :
    Kept path lo path.length (enterField fs a.length c.length c) (lastPieces cs c) := by
  have hlast : path.length = a.length + c.length := by rw [hpath, List.length_append]
  rw [lastPieces, hlast]
  by_cases hc : Ordinary c
  · rw [enterField, if_pos hc, if_pos hc]
    exact h.concat (slice_at (b := []) (by rw [List.append_nil, hpath]))
  · rw [if_neg hc]
    exact (h.drop hc).mono (Nat.le_add_right ..)

/-- The components of a path do to the fields what they do to the list of components. -/
theorem Kept.components {a : Bytes} {components : List Bytes} (hne : components ≠ [])
    (h : Kept path lo a.length fs (withSlash cs)) (hpath : path = a ++ strjoin components) :
    Kept path lo path.length (placesFrom a.length fs components)
      (lastPieces (components.dropLast.foldl enter cs) (components.getLastD [])) := by
  induction components generalizing a fs cs with
  | nil => exact absurd rfl hne
  | cons c components ih =>
    rcases components with _ | ⟨d, components⟩
    · have hjoin : strjoin [c] = c := by simp [strjoin]
      exact h.last (hjoin ▸ hpath)
    · rw [strjoin_cons_cons] at hpath
      have hlen : (a ++ (c ++ [slash])).length = a.length + c.length + 1 := by
        simp only [List.length_append, List.length_singleton]
        omega
      rw [placesFrom, ← hlen]
      exact ih (List.cons_ne_nil d components) (hlen ▸ h.component hpath) (by rw [hpath]; simp)

theorem strjoin_concat (cs : List Bytes) (c : Bytes) :
    strjoin (cs ++ [c]) = (withSlash cs).flatten ++ c := by
  induction cs with
  | nil => simp [strjoin, withSlash]
  | cons d cs ih =>
    rw [withSlash, List.map_cons, List.flatten_cons, List.append_assoc, ← withSlash, ← ih]
    cases cs <;> simp [strjoin]

theorem flatten_withSlash (cs : List Bytes) :
    (withSlash cs).flatten = strjoin cs ++ (if cs ≠ [] then [slash] else []) := by
  obtain rfl | ⟨cs, c, rfl⟩ := List.eq_nil_or_concat' cs
  · rfl
  · rw [strjoin_concat, withSlash, List.map_append, List.flatten_append, ← withSlash,
      List.append_assoc, if_pos (List.append_ne_nil_of_right_ne_nil _ (List.cons_ne_nil c []))]
    simp

theorem flatten_lastPieces (cs : List Bytes) (c : Bytes) : (lastPieces cs c).flatten =
    strjoin (enter cs c) ++ (if enter cs c ≠ [] ∧ ¬Ordinary c then [slash] else []) := by
  by_cases hc : Ordinary c
  · rw [lastPieces, if_pos hc, if_neg fun h => h.2 hc, enter_ordinary hc, strjoin_concat,
      List.flatten_append, List.flatten_singleton, List.append_nil]
  · rw [lastPieces, if_neg hc, flatten_withSlash]
    simp only [hc, not_false_eq_true, and_true]

theorem length_lastPieces (cs : List Bytes) (c : Bytes) :
    (lastPieces cs c).length = (enter cs c).length := by
  by_cases hc : Ordinary c
  · rw [lastPieces, if_pos hc, enter_ordinary hc, withSlash, List.length_append, List.length_map,
      List.length_append]
  · rw [lastPieces, if_neg hc, withSlash, List.length_map]

/-- The length of the slash at the start of a path. -/
def lead (path : Bytes) : Nat := if path.head? = some slash then 1 else 0

theorem splitOn_slash (rest : Bytes) :
    (slash :: rest).splitOn slash = [] :: rest.splitOn slash :=
  List.splitOn_append_cons_self_of_not_mem (List.not_mem_nil (a := slash)) rest

theorem places_slash (rest : Bytes) :
    places (slash :: rest) = placesFrom 1 [] (rest.splitOn slash) := by
  obtain ⟨c, cs, hcs⟩ := List.exists_cons_of_ne_nil (List.splitOn_ne_nil slash rest)
  rw [places, splitOn_slash, hcs]
  rfl

theorem enter_getLastD {components : List Bytes} (hne : components ≠ []) :
    enter (components.dropLast.foldl enter []) (components.getLastD []) =
      components.foldl enter [] := by
  rw [List.getLastD_eq_getLast?, List.getLast?_eq_some_getLast hne, Option.getD_some]
  conv_rhs => rw [← List.dropLast_concat_getLast hne, List.foldl_concat]

/-- The places of the components behind a first slash, or from the start. -/
theorem placesFrom_spec (path a rest : Bytes) (hpath : path = a ++ rest) :
    let fs := placesFrom a.length [] (rest.splitOn slash)
    Row path.length a.length fs ∧ fs.length = ((rest.splitOn slash).foldl enter []).length ∧
      (fs.map (slice path)).flatten = strjoin ((rest.splitOn slash).foldl enter []) ++
        (if (rest.splitOn slash).foldl enter [] ≠ [] ∧
          ¬Ordinary ((rest.splitOn slash).getLastD []) then [slash] else []) := by
  have hne := List.splitOn_ne_nil slash rest
  have hstart : Kept path a.length a.length [] (withSlash []) := ⟨le_rfl, rfl⟩
  have hkept := hstart.components hne (by rw [strjoin, List.intercalate_splitOn, hpath])
  refine ⟨hkept.row, ?_, ?_⟩
  · rw [← enter_getLastD hne, ← length_lastPieces, ← hkept.slices, List.length_map]
  · rw [hkept.slices, flatten_lastPieces, enter_getLastD hne]

/-- The places of a path: what is there are the components that are left. -/
theorem places_spec (path : Bytes) :
    Row path.length (lead path) (places path) ∧
      (places path).length = ((path.splitOn slash).foldl enter []).length ∧
      path.take (lead path) ++ ((places path).map (slice path)).flatten =
        removeDotSegments path := by
  rcases path with _ | ⟨x, rest⟩
  · have hnil : places [] = [] := by decide +kernel
    rw [hnil]
    exact ⟨le_rfl, by decide +kernel, by decide +kernel⟩
  by_cases hx : x = slash
  · subst hx
    have hlast : ((slash :: rest).splitOn slash).getLastD [] =
        (rest.splitOn slash).getLastD [] := by
      obtain ⟨c, cs, hcs⟩ := List.exists_cons_of_ne_nil (List.splitOn_ne_nil slash rest)
      rw [splitOn_slash, hcs]
      rfl
    have hleft : ((slash :: rest).splitOn slash).foldl enter [] =
        (rest.splitOn slash).foldl enter [] := by
      rw [splitOn_slash, List.foldl_cons, enter_dropped (.inl rfl)]
    obtain ⟨hrow, hlength, hflatten⟩ := placesFrom_spec (slash :: rest) [slash] rest rfl
    rw [places_slash, hleft]
    refine ⟨hrow, hlength, ?_⟩
    rw [removeDotSegments, assemble, hlast, hleft]
    change [slash] ++ ((placesFrom [slash].length [] _).map _).flatten = _
    rw [hflatten]
    simp
  · obtain ⟨hrow, hlength, hflatten⟩ := placesFrom_spec (x :: rest) [] (x :: rest) rfl
    have hlead : lead (x :: rest) = 0 := if_neg (by simpa using hx)
    rw [hlead]
    refine ⟨hrow, hlength, ?_⟩
    rw [removeDotSegments, assemble]
    change [] ++ ((placesFrom ([] : Bytes).length [] _).map _).flatten = _
    rw [hflatten]
    simp [hx]

/-! ## Moving what is kept -/

/-- The fields end before 2^31. -/
def Near (fs : List Field) : Prop := ∀ f ∈ fs, f.off + f.len < 2 ^ 31

instance (fs : List Field) : Decidable (Near fs) := inferInstanceAs (Decidable (∀ f ∈ fs, _))

theorem movePieces_cons (buf : Bytes) (out : Nat) (fs : List Field) (hf : f.off + f.len < 2 ^ 31)
    (hlen : f.off + f.len ≤ buf.length) :
    movePieces buf out (offsets (f :: fs)) =
      if f.off = out then movePieces buf (f.off + f.len) (offsets fs)
      else movePieces (buf.take out ++ slice buf f ++ buf.drop (out + f.len)) (out + f.len)
        (offsets fs) := by
  have hint : ∀ k : Nat, k < 2 ^ 31 → Int.bmod (k : Int) (2 ^ 32) = k := fun k hk =>
    Int.bmod_eq_of_le (by omega) (by omega)
  have hguard : (0 : Int) ≤ (f.off : Int) ∧ (f.off : Int) ≤ ((f.off + f.len : Nat) : Int) ∧
      ((f.off + f.len : Nat) : Int) ≤ (buf.length : Int) := by omega
  change movePieces buf out (Int.bmod f.off (2 ^ 32) ::
    Int.bmod (f.off + f.len : Nat) (2 ^ 32) :: offsets fs) = _
  rw [hint _ (by omega), hint _ hf, movePieces, if_pos hguard]
  simp only [Int.toNat_natCast, Nat.add_sub_cancel_left]

/-- The pieces are moved behind what is in front of `out`. -/
theorem movePieces_offsets {buf : Bytes} {out : Nat} (hnear : Near fs)
    (hrow : Row path.length lo fs) (hout : out ≤ lo) (hlen : buf.length = path.length)
    (hbuf : buf.drop lo = path.drop lo) :
    ∃ buf' out', movePieces buf out (offsets fs) = some (buf', out') ∧
      buf'.take out' = buf.take out ++ (fs.map (slice path)).flatten := by
  induction fs generalizing buf out lo with
  | nil => exact ⟨buf, out, rfl, by rw [List.map_nil, List.flatten_nil, List.append_nil]⟩
  | cons f fs ih =>
    obtain ⟨hlo, hrow⟩ := hrow
    obtain ⟨hf, hnear⟩ := List.forall_mem_cons.mp hnear
    have hle := hrow.le
    have hdrop : ∀ n, lo ≤ n → buf.drop n = path.drop n := by
      intro n hn
      have := congrArg (List.drop (n - lo)) hbuf
      rwa [List.drop_drop, List.drop_drop, Nat.add_sub_cancel' hn] at this
    have hslice : slice buf f = slice path f := by rw [slice, slice, hdrop _ hlo]
    have hmove := movePieces_cons buf out fs hf (by omega)
    have hlength : (slice buf f).length = f.len := by
      rw [slice, List.length_take, List.length_drop]
      omega
    rw [hmove, List.map_cons, List.flatten_cons, ← hslice, ← List.append_assoc]
    by_cases heq : f.off = out
    · rw [if_pos heq]
      obtain ⟨buf', out', hrest, htake⟩ := ih hnear hrow le_rfl hlen (hdrop _ (by omega))
      refine ⟨buf', out', hrest, ?_⟩
      rw [htake, List.take_add, ← heq]
      rfl
    · rw [if_neg heq]
      have hfront : (buf.take out ++ slice buf f).length = out + f.len := by
        rw [List.length_append, List.length_take, hlength]
        omega
      have hmoved : (buf.take out ++ slice buf f ++ buf.drop (out + f.len)).length =
          path.length := by
        rw [List.length_append, hfront, List.length_drop]
        omega
      have hbehind : (buf.take out ++ slice buf f ++ buf.drop (out + f.len)).drop (f.off + f.len) =
          path.drop (f.off + f.len) := by
        have hsum : out + f.len + (f.off + f.len - (out + f.len)) = f.off + f.len := by omega
        rw [List.drop_append, List.drop_eq_nil_of_le (by omega), List.nil_append, hfront,
          List.drop_drop, hsum, hdrop _ (by omega)]
      obtain ⟨buf', out', hrest, htake⟩ :=
        ih hnear hrow (by omega : out + f.len ≤ f.off + f.len) hmoved hbehind
      refine ⟨buf', out', hrest, ?_⟩
      rw [htake, List.take_left' hfront]

/-- The end of a field from 2^31 on is stored as a negative number. -/
theorem movePieces_far (hfar : ¬Near fs) (hfs : ∀ f ∈ fs, f.off + f.len < 2 ^ 32) (buf : Bytes)
    (out : Nat) : movePieces buf out (offsets fs) = none := by
  induction fs generalizing buf out with
  | nil => exact absurd (fun f hf => absurd hf List.not_mem_nil) hfar
  | cons f fs ih =>
    obtain ⟨hf, hfs⟩ := List.forall_mem_cons.mp hfs
    change movePieces buf out (Int.bmod f.off (2 ^ 32) ::
      Int.bmod (f.off + f.len : Nat) (2 ^ 32) :: offsets fs) = none
    rw [movePieces]
    by_cases hlt : f.off + f.len < 2 ^ 31
    · have hrest : ¬Near fs := fun h => hfar (List.forall_mem_cons.mpr ⟨hlt, h⟩)
      split
      · dsimp only
        split
        · exact ih hrest hfs _ _
        · exact ih hrest hfs _ _
      · rfl
    · have hneg : Int.bmod (f.off + f.len : Nat) (2 ^ 32) < 0 := by
        rw [Int.bmod_def]
        split <;> omega
      rw [if_neg (by omega)]

theorem inBound_offsets (hfew : fs.length < 2 ^ 30) : inBound (offsets fs) = offsets fs := by
  have hint : Int.bmod ((offsets fs).length : Int) (2 ^ 32) = (offsets fs).length := by
    rw [length_offsets]
    exact Int.bmod_eq_of_le (by omega) (by omega)
  rw [inBound, hint, Int.toNat_natCast, List.take_length]

theorem inBound_many (hmany : 2 ^ 30 ≤ fs.length) (hle : fs.length ≤ 2 ^ 31) :
    inBound (offsets fs) = [] := by
  have hint : Int.bmod ((offsets fs).length : Int) (2 ^ 32) ≤ 0 := by
    rw [length_offsets, Int.bmod_def]
    split <;> omega
  rw [inBound, Int.toNat_of_nonpos hint, List.take_zero]

/-- The offsets that are left are those of the places. -/
theorem normalizePath_eq (path : Bytes) : normalizePath path =
    (movePieces path (lead path) (inBound (offsets (places path)))).map
      fun (path, out) => path.take out := by
  have hjoin : ∀ rest : Bytes, strjoin (rest.splitOn slash) = rest :=
    fun _ => List.intercalate_splitOn slash
  have hscan : ∀ (b : Bool) (p : Nat) (rest : Bytes),
      let m := scanPath ⟨.slash, [], b⟩ p rest
      finishPath m (p + rest.length) = offsets (placesFrom p [] (rest.splitOn slash)) ∧
        m.startWithSlash = b := by
    intro b p rest
    have h := finishPath_components (b := b) (List.splitOn_ne_nil slash rest)
      (fun c hc => Components.notMem_of_mem_splitOn hc) p []
    rwa [hjoin] at h
  rcases path with _ | ⟨x, rest⟩
  · decide +kernel
  by_cases hx : x = slash
  · subst hx
    obtain ⟨hfinish, hflag⟩ := hscan true 1 rest
    change rewritePath (slash :: rest) (scanPath ⟨.slash, [], true⟩ 1 rest) = _
    rw [rewritePath, hflag, List.length_cons, Nat.add_comm, hfinish, places_slash]
    rfl
  · have hstep : stepPath ⟨.start, [], false⟩ 0 x = stepPath ⟨.slash, [], false⟩ 0 x := by
      by_cases hdot : x = period
      · exact (if_pos hdot).trans (if_pos hdot).symm
      · exact ((if_neg hdot).trans (if_neg hx)).trans ((if_neg hdot).trans (if_neg hx)).symm
    have hlead : lead (x :: rest) = 0 := if_neg (by simpa using hx)
    obtain ⟨hfinish, hflag⟩ := hscan false 0 (x :: rest)
    rw [Nat.zero_add] at hfinish
    rw [normalizePath, scanPath, hstep, ← scanPath, rewritePath, hflag, hfinish, hlead]
    rfl

/-- A path of which fewer than 2^30 components are left, all of them before 2^31. -/
structure Placed (path : Bytes) : Prop where
  near : Near (places path)
  few : (places path).length < 2 ^ 30

instance (path : Bytes) : Decidable (Placed path) :=
  decidable_of_iff (Near (places path) ∧ (places path).length < 2 ^ 30)
    ⟨fun h => ⟨h.1, h.2⟩, fun h => ⟨h.near, h.few⟩⟩

/-- `normalizePath` removes the dot segments. -/
theorem normalizePath_spec (h : Placed path) :
    normalizePath path = some (removeDotSegments path) := by
  obtain ⟨hrow, -, hspec⟩ := places_spec path
  obtain ⟨buf, out, hmove, htake⟩ := movePieces_offsets h.near hrow le_rfl rfl rfl
  rw [normalizePath_eq, inBound_offsets h.few, hmove, Option.map_some]
  exact congrArg some (htake.trans hspec)

theorem normalizePath_far (hlen : path.length < 2 ^ 32) (hfar : ¬Near (places path))
    (hfew : (places path).length < 2 ^ 30) : normalizePath path = none := by
  obtain ⟨hrow, -⟩ := places_spec path
  rw [normalizePath_eq, inBound_offsets hfew,
    movePieces_far hfar (fun f hf => (hrow.le_of_mem hf).trans_lt hlen)]
  rfl

/-- With too many components the loop does not run. -/
theorem normalizePath_many (hmany : 2 ^ 30 ≤ (places path).length)
    (hle : (places path).length ≤ 2 ^ 31) : normalizePath path = some (path.take (lead path)) := by
  rw [normalizePath_eq, inBound_many hmany hle]
  rfl

theorem length_removeDotSegments_lt (hlead : lead path < n)
    (hends : ∀ f ∈ places path, f.off + f.len < n) : (removeDotSegments path).length < n := by
  obtain ⟨hrow, -, hspec⟩ := places_spec path
  have hlt : lead path + ((places path).map (slice path)).flatten.length < n :=
    hrow.length_lt hlead hends
  have hle : (path.take (lead path)).length ≤ lead path := List.length_take_le _ _
  rw [← hspec, List.length_append]
  omega

theorem lead_le (path : Bytes) : lead path ≤ 1 := by
  rw [lead]
  split <;> omega

theorem length_places_le (path : Bytes) : 2 * (places path).length ≤ path.length + 1 := by
  obtain ⟨hrow, hlength, -⟩ := places_spec path
  have hge := length_removeDotSegments_ge path
  have hlt := length_removeDotSegments_lt (n := path.length + 1) (Nat.lt_succ_of_le hrow.le)
    fun f hf => Nat.lt_succ_of_le (hrow.le_of_mem hf)
  omega

/-- The normal form of a path has its components where there is no less room for them. -/
theorem Placed.removeDotSegments (h : Placed path) : Placed (removeDotSegments path) := by
  have hlt := length_removeDotSegments_lt ((lead_le path).trans_lt (by decide)) h.near
  obtain ⟨hrow, hlength, -⟩ := places_spec (Uri.removeDotSegments path)
  refine ⟨fun f hf => (hrow.le_of_mem hf).trans_lt hlt, ?_⟩
  rw [hlength, foldl_enter_removeDotSegments, ← (places_spec path).2.1]
  exact h.few

/-- Below 2^32 bytes no other path is normalised. -/
theorem placed_of_normalizePath (hlen : path.length < 2 ^ 32)
    (h : normalizePath path = some (removeDotSegments path)) : Placed path := by
  have hplaces := length_places_le path
  by_cases hfew : (places path).length < 2 ^ 30
  · refine ⟨by_contra fun hfar => ?_, hfew⟩
    rw [normalizePath_far hlen hfar hfew] at h
    cases h
  · rw [normalizePath_many (by omega) (by omega)] at h
    have hge := length_removeDotSegments_ge path
    have hle : (path.take (lead path)).length ≤ lead path := List.length_take_le _ _
    rw [← (places_spec path).2.1, ← Option.some.inj h, ← lead] at hge
    omega

end

end FluxCore.Uri
