import FluxCore.Uri.Reported

/-!
# Taking URIs apart and putting them together

`construct` writes a URI from the parts that `parse` has read, some of them in another spelling: the
user and the password are encoded again, and a default port is left out.
-/

namespace FluxCore.Uri

open Utp (Bytes)
open Torrent (slash percent percentEncode hexDigit getBasename inRFC3986UnreservedChars)
open Util (isDigit isHexDigit hexCharToUInt)

/-! ## Encoding and decoding -/

section Coding

variable {c : UInt8} {s : Bytes}

theorem percentDecode_plain (hc : c ≠ percentSign) (s : Bytes) :
    percentDecode (c :: s) = c :: percentDecode s := by
  match s with
  | [] => rfl
  | [_] => rfl
  | h :: l :: s =>
    rw [percentDecode, if_neg]
    exact fun hand => hc hand.1

theorem hexDigit_nibbles (c : UInt8) : isHexDigit (hexDigit (c / 16)) = true ∧
    isHexDigit (hexDigit (c % 16)) = true ∧
    hexCharToUInt (hexDigit (c / 16)) * 16 + hexCharToUInt (hexDigit (c % 16)) = c := by
  have h : ∀ n < 256, isHexDigit (hexDigit (UInt8.ofNat n / 16)) = true ∧
      isHexDigit (hexDigit (UInt8.ofNat n % 16)) = true ∧
      hexCharToUInt (hexDigit (UInt8.ofNat n / 16)) * 16 +
        hexCharToUInt (hexDigit (UInt8.ofNat n % 16)) = UInt8.ofNat n := by decide +kernel
  rw [← UInt8.ofNat_toNat (x := c)]
  exact h _ c.toNat_lt

theorem percentDecode_percent (c : UInt8) (s : Bytes) :
    percentDecode (percent c ++ s) = c :: percentDecode s := by
  obtain ⟨h1, h2, hvalue⟩ := hexDigit_nibbles c
  change percentDecode (percentSign :: hexDigit (c / 16) :: hexDigit (c % 16) :: s) = _
  rw [percentDecode, if_pos ⟨rfl, h1, h2⟩, hvalue]

theorem ne_percentSign (h : inRFC3986UnreservedChars c = true) : c ≠ percentSign := by
  rintro rfl
  exact absurd h (by decide)

/-- What is encoded is decoded. -/
theorem percentDecode_percentEncode (s : Bytes) : percentDecode (percentEncode s) = s := by
  have hplain : ∀ s : Bytes, s.all inRFC3986UnreservedChars = true → percentDecode s = s := by
    intro s hs
    induction s with
    | nil => rfl
    | cons c s ih =>
      obtain ⟨hc, hs⟩ := Bool.and_eq_true_iff.mp (List.all_cons.symm.trans hs)
      rw [percentDecode_plain (ne_percentSign hc), ih hs]
  have hcoded : ∀ s : Bytes, percentDecode
      (s.flatMap fun c => if inRFC3986UnreservedChars c then [c] else percent c) = s := by
    intro s
    induction s with
    | nil => rfl
    | cons c s ih =>
      rw [List.flatMap_cons]
      by_cases hc : inRFC3986UnreservedChars c = true
      · rw [if_pos hc, List.singleton_append, percentDecode_plain (ne_percentSign hc), ih]
      · rw [if_neg hc, percentDecode_percent, ih]
  unfold percentEncode
  split
  next hall => exact hplain s hall
  · exact hcoded s

theorem percentDecode_eq_nil : percentDecode s = [] ↔ s = [] := by
  match s with
  | [] => exact Iff.rfl
  | [c] => exact Iff.rfl
  | [c, d] => exact Iff.rfl
  | c :: h :: l :: s =>
    rw [percentDecode]
    split
    · exact iff_of_false (List.cons_ne_nil _ _) (List.cons_ne_nil _ _)
    · exact iff_of_false (List.cons_ne_nil _ _) (List.cons_ne_nil _ _)

/-- The characters of what is encoded have no meaning in a URI. -/
theorem isEncoded_ordinary (h : Torrent.isEncoded c = true) : c ≠ 0 ∧ c ≠ atmark ∧ c ≠ colon ∧
    c ≠ slash ∧ c ≠ lbracket ∧ isEnd c = false := by
  have h' : ∀ n < 256, Torrent.isEncoded (UInt8.ofNat n) = true → UInt8.ofNat n ≠ 0 ∧
      UInt8.ofNat n ≠ atmark ∧ UInt8.ofNat n ≠ colon ∧ UInt8.ofNat n ≠ slash ∧
      UInt8.ofNat n ≠ lbracket ∧ isEnd (UInt8.ofNat n) = false := by decide +kernel
  rw [← UInt8.ofNat_toNat (x := c)] at h ⊢
  exact h' _ c.toNat_lt h

theorem ordinary_percentEncode (hc : c ∈ percentEncode s) : c ≠ 0 ∧ c ≠ atmark ∧ c ≠ colon ∧
    c ≠ slash ∧ c ≠ lbracket ∧ isEnd c = false :=
  isEncoded_ordinary (Torrent.isEncoded_percentEncode hc)

theorem firstWF_percentEncode (hs : s ≠ []) : FirstWF isUser (percentEncode s) := by
  refine ⟨fun h => hs (Torrent.percentEncode_eq_nil.mp h), fun c hc => ?_, fun c hc => ?_⟩
  · obtain ⟨-, hat, hcolon, hslash, hbracket, -⟩ :=
      ordinary_percentEncode (List.mem_of_mem_head? hc)
    exact ⟨hat, hcolon, hslash, hbracket⟩
  · obtain ⟨-, -, hcolon, -, hbracket, hend⟩ := ordinary_percentEncode (List.mem_of_mem_tail hc)
    exact isUser_iff.mpr ⟨hcolon, hbracket, hend⟩

theorem passwdWF_percentEncode (s : Bytes) : PasswdWF (percentEncode s) := by
  refine ⟨fun c hc => ?_, fun c hc => ?_⟩
  · obtain ⟨-, hat, -, hslash, -, -⟩ := ordinary_percentEncode (List.mem_of_mem_head? hc)
    exact ⟨hat, hslash⟩
  · obtain ⟨-, hat, -, -, hbracket, hend⟩ := ordinary_percentEncode (List.mem_of_mem_tail hc)
    exact isPasswd_iff.mpr ⟨hat, hbracket, hend⟩

/-! ## Numbers -/

theorem isDigit_decimalBytes {n : Nat} (hc : c ∈ decimalBytes n) : isDigit c = true := by
  obtain ⟨d, hd, rfl⟩ := List.mem_map.mp hc
  obtain ⟨hlow, hhigh⟩ := Char.isDigit_iff_toNat.mp
    (Nat.isDigit_of_mem_toDigits (by decide) (by decide) hd)
  have h : ∀ n < 58, 48 ≤ n → isDigit (UInt8.ofNat n) = true := by decide +kernel
  exact h _ (by simpa using Nat.lt_succ_of_le hhigh) (by simpa using hlow)

/-- The digits of a number are read as that number. -/
theorem foldl_decimalBytes (n : Nat) : (decimalBytes n).foldl addDigit 0 = n := by
  have hfold : ∀ (l : List Char) (k : Nat), (∀ c ∈ l, c.isDigit = true) →
      (l.map fun c => UInt8.ofNat c.toNat).foldl addDigit k = Nat.ofDigitChars 10 l k := by
    intro l
    induction l with
    | nil => exact fun _ _ => rfl
    | cons d l ih =>
      intro k hl
      obtain ⟨hd, hl⟩ := List.forall_mem_cons.mp hl
      obtain ⟨hlow, hhigh⟩ := Char.isDigit_iff_toNat.mp hd
      have hstep : addDigit k (UInt8.ofNat d.toNat) = ((10 * k + (d.toNat - 48) : Nat) : Int) := by
        have hlow' : 48 ≤ d.toNat := by simpa using hlow
        have hhigh' : d.toNat ≤ 57 := by simpa using hhigh
        rw [addDigit, UInt8.toNat_ofNat_of_lt' (by simp [UInt8.size]; omega)]
        omega
      rw [List.map_cons, List.foldl_cons, hstep, ih _ hl, Nat.ofDigitChars_cons]
      rfl
  have hdigits := hfold (Nat.toDigits 10 n) 0 fun c hc =>
    Nat.isDigit_of_mem_toDigits (by decide) (by decide) hc
  rw [Nat.ofDigitChars_ten_toDigits] at hdigits
  exact hdigits

theorem portWF_decimalBytes {n : Nat} (hn : n ≤ 65535) : PortWF (decimalBytes n) := by
  refine ⟨fun h => Nat.toDigits_ne_nil (List.map_eq_nil_iff.mp h), fun d => isDigit_decimalBytes, ?_⟩
  rw [foldl_decimalBytes, uint16Max]
  omega

end Coding

namespace Parts

variable {x : Parts} {s : Bytes}

/-! ## What is read -/

/-- The path without its basename, or the root. -/
def dir (x : Parts) : Bytes :=
  if x.tail.path = [] then [slash]
  else x.tail.path.take (x.tail.path.length - (getBasename x.tail.path).length)

def portOf (x : Parts) : Nat :=
  let n := (x.port.map fun ds => (ds.foldl addDigit 0).toNat).getD 0
  if n = 0 then getDefaultPort x.scheme else n

def struct (x : Parts) : UriStruct where
  protocol := x.scheme
  host := x.host
  port := x.portOf
  dir := x.dir
  file := getBasename x.tail.path
  query := Tail.part question x.tail.query
  username := x.user.elim [] fun u => percentDecode u.1
  hasPassword := (x.user.bind Prod.snd).isSome
  password := (x.user.bind Prod.snd).elim [] percentDecode
  ipv6LiteralAddress := x.ipv6

theorem slice_append {a b c : Bytes} {f : Field} (hoff : f.off = a.length) (hlen : f.len = b.length) :
    slice (a ++ (b ++ c)) f = b := by
  rw [slice, hoff, hlen, List.drop_left' rfl, List.take_left' rfl]

theorem slice_scheme (x : Parts) : slice x.render ⟨0, x.scheme.length⟩ = x.scheme :=
  slice_append (a := []) rfl rfl

theorem slice_host (x : Parts) : slice x.render x.hostPlace = x.host := by
  cases hipv6 : x.ipv6 with
  | false =>
    have hsplit : x.render = (x.scheme ++ (sep ++ renderUser x.user)) ++
        (x.host ++ after x.port x.tail) := by
      simp [render, renderHost, hipv6]
    rw [hsplit]
    refine slice_append ?_ rfl
    simp only [hostPlace, hipv6, hostStart, userStart, sep, List.length_append, List.length_cons,
      List.length_nil, Bool.false_eq_true, if_false]
    omega
  | true =>
    have hsplit : x.render = (x.scheme ++ (sep ++ (renderUser x.user ++ [lbracket]))) ++
        (x.host ++ ([rbracket] ++ after x.port x.tail)) := by
      simp [render, renderHost, hipv6]
    rw [hsplit]
    refine slice_append ?_ rfl
    simp only [hostPlace, hipv6, hostStart, userStart, sep, List.length_append, List.length_cons,
      List.length_nil, if_true]
    omega

theorem slice_user {u : Bytes} {w : Option Bytes} (hx : x.user = some (u, w)) :
    slice x.render ⟨x.userStart, u.length⟩ = u := by
  have hsplit : x.render = (x.scheme ++ sep) ++ (u ++ ((Tail.part colon w ++ [atmark]) ++
      (renderHost x.ipv6 x.host ++ after x.port x.tail))) := by
    simp [render, renderUser, hx]
  rw [hsplit]
  refine slice_append ?_ rfl
  simp [userStart, sep]

theorem slice_passwd {u w : Bytes} (hx : x.user = some (u, some w)) :
    slice x.render ⟨x.userStart + u.length + 1, w.length⟩ = w := by
  have hsplit : x.render = (x.scheme ++ (sep ++ (u ++ [colon]))) ++ (w ++ ([atmark] ++
      (renderHost x.ipv6 x.host ++ after x.port x.tail))) := by
    simp [render, renderUser, Tail.part, hx]
  rw [hsplit]
  refine slice_append ?_ rfl
  simp only [userStart, sep, List.length_append, List.length_cons, List.length_nil]
  omega

theorem tailStart_eq (x : Parts) : (x.scheme ++ (sep ++ (renderUser x.user ++
    (renderHost x.ipv6 x.host ++ Tail.part colon x.port)))).length = x.tailStart := by
  simp only [tailStart, hostStart, userStart, sep, List.length_append, List.length_cons,
    List.length_nil]
  omega

theorem slice_query {q : Bytes} (hx : x.tail.query = some q) :
    slice x.render ⟨x.queryStart + 1, q.length⟩ = q := by
  have hsplit : x.render = ((x.scheme ++ (sep ++ (renderUser x.user ++ (renderHost x.ipv6 x.host ++
      Tail.part colon x.port)))) ++ (x.tail.path ++ [question])) ++
        (q ++ Tail.part hash x.tail.fragment) := by
    simp [render, after, Tail.render, Tail.part, hx]
  rw [hsplit]
  refine slice_append ?_ rfl
  rw [List.length_append, tailStart_eq, List.length_append, queryStart]
  rfl

theorem slice_take {p a : Bytes} {o n k : Nat} (h : slice p ⟨o, n⟩ = a) (hk : k ≤ n) :
    slice p ⟨o, k⟩ = a.take k := by
  rw [← h, slice, slice, List.take_take, min_eq_left hk]

theorem slice_drop {p a : Bytes} {o n k : Nat} (h : slice p ⟨o, n⟩ = a) :
    slice p ⟨o + k, n - k⟩ = a.drop k := by
  rw [← h, slice, slice, List.drop_take, List.drop_drop]

theorem getBasename_suffix (s : Bytes) : getBasename s <:+ s := by
  have h := List.reverse_suffix.mpr (List.takeWhile_prefix (· ≠ slash) (l := s.reverse))
  rwa [List.reverse_reverse] at h

/-- What follows the last slash of the path. -/
theorem slice_basename (x : Parts) : slice x.render
    ⟨x.queryStart - (getBasename x.tail.path).length, (getBasename x.tail.path).length⟩ =
      getBasename x.tail.path := by
  have hle := length_getBasename_le x.tail.path
  have hdrop := slice_drop (k := x.tail.path.length - (getBasename x.tail.path).length)
    (slice_path x)
  rw [← List.suffix_iff_eq_drop.mp (getBasename_suffix x.tail.path)] at hdrop
  rw [queryStart, Nat.add_sub_assoc hle]
  convert hdrop using 3
  omega

/-- The lengths from which `parse` computes that of the directory. -/
theorem length_places (x : Parts) : (x.places.path.getD ⟨0, 0⟩).len = x.tail.path.length ∧
    (x.places.basename.getD ⟨0, 0⟩).len = (getBasename x.tail.path).length := by
  by_cases hpath : x.tail.path = []
  · simp [places, hpath, getBasename]
  · by_cases hname : getBasename x.tail.path = []
    · simp [places, hpath, hname]
    · simp [places, hpath, hname]

theorem file_places (x : Parts) : (if x.places.path.isSome ∧ x.places.basename.isSome then
    slice x.render (x.places.basename.getD ⟨0, 0⟩) else []) = getBasename x.tail.path := by
  by_cases hpath : x.tail.path = []
  · simp [places, hpath, getBasename]
  · by_cases hname : getBasename x.tail.path = []
    · simp [places, hpath, hname]
    · simp [places, hpath, hname, slice_basename]

theorem dir_places (x : Parts) : (match x.places.path with
    | some path => slice x.render
        ⟨path.off, x.tail.path.length - (getBasename x.tail.path).length⟩
    | none => [slash]) = x.dir := by
  by_cases hpath : x.tail.path = []
  · simp [places, dir, hpath]
  · simp [places, dir, hpath, slice_take (slice_path x) (Nat.sub_le ..)]

/-- Of the places of the parts, `parse` makes the parts. -/
theorem structOf_places (x : Parts) : structOf x.render x.places = .accepted x.struct := by
  obtain ⟨hpath, hname⟩ := length_places x
  have hle := length_getBasename_le x.tail.path
  have hscheme : slice x.render (x.places.scheme.getD ⟨0, 0⟩) = x.scheme := slice_scheme x
  have hhost : slice x.render (x.places.host.getD ⟨0, 0⟩) = x.host := slice_host x
  have hquery : (if x.places.query.isSome then
      question :: slice x.render (x.places.query.getD ⟨0, 0⟩) else []) =
        Tail.part question x.tail.query := by
    rcases hq : x.tail.query with _ | q
    · simp [places, hq, Tail.part]
    · simp [places, hq, Tail.part, slice_query hq]
  have huser : (if x.places.user.isSome then
      percentDecode (slice x.render (x.places.user.getD ⟨0, 0⟩)) else []) =
        x.user.elim [] fun u => percentDecode u.1 := by
    rcases hu : x.user with _ | ⟨u, w⟩
    · simp [places, hu]
    · simp [places, hu, slice_user hu]
  have hpasswd : x.places.passwd.isSome = (x.user.bind Prod.snd).isSome ∧
      (if x.places.passwd.isSome then
        percentDecode (slice x.render (x.places.passwd.getD ⟨0, 0⟩)) else []) =
          (x.user.bind Prod.snd).elim [] percentDecode := by
    rcases hu : x.user with _ | ⟨u, _ | w⟩
    · simp [places, hu]
    · simp [places, hu]
    · simp [places, hu, slice_passwd hu]
  rw [structOf]
  dsimp only
  rw [hpath, hname, if_neg (not_lt.mpr hle), file_places, hscheme, hhost, hquery, huser, hpasswd.2,
    hpasswd.1, struct]
  congr 2
  exact dir_places x

/-! ## What is written -/

/-- The spelling that `construct` chooses for what is in front of the path, and then `t`. -/
def respelled (x : Parts) (t : Tail) : Parts where
  scheme := x.scheme
  user := x.user.map fun u =>
    (percentEncode (percentDecode u.1), u.2.map fun w => percentEncode (percentDecode w))
  ipv6 := x.ipv6
  host := x.host
  port :=
    if x.portOf ≠ 0 ∧ getDefaultPort x.scheme ≠ x.portOf then some (decimalBytes x.portOf) else none
  tail := t

/-- The spelling that `construct` chooses. -/
def canonical (x : Parts) : Parts := x.respelled {
  path := if x.tail.path = [] then [slash] else x.tail.path
  query := x.tail.query
  fragment := none
  path_start := by
    split
    · exact .inr ⟨[], rfl⟩
    · exact x.tail.path_start
  path_chars := by
    split
    · decide
    · exact x.tail.path_chars
  query_chars := x.tail.query_chars }

theorem getDefaultPort_le (protocol : Bytes) : getDefaultPort protocol ≤ 65535 := by
  unfold getDefaultPort
  split_ifs <;> decide

theorem portOf_le (h : x.WF) : x.portOf ≤ 65535 := by
  unfold portOf
  dsimp only
  split
  · exact getDefaultPort_le _
  · rcases hport : x.port with _ | ds
    · exact Nat.zero_le _
    · have := (port_nonneg h ds hport).2
      rw [uint16Max] at this
      rw [Option.map_some, Option.getD_some]
      omega

theorem respelled_wf (h : x.WF) {t : Tail} (ht : t.render ≠ []) : (x.respelled t).WF where
  scheme_ne := h.scheme_ne
  scheme_chars := h.scheme_chars
  user u w hu := by
    obtain ⟨⟨u, w⟩, hx, heq⟩ := Option.map_eq_some_iff.mp hu
    obtain ⟨rfl, rfl⟩ := Prod.mk.inj heq
    refine ⟨firstWF_percentEncode fun hnil => ?_, fun w' hw' => ?_⟩
    · exact (h.user u w hx).1.ne_nil (percentDecode_eq_nil.mp hnil)
    · obtain ⟨w, -, rfl⟩ := Option.map_eq_some_iff.mp hw'
      exact passwdWF_percentEncode _
  host := by
    have hold := h.host
    rw [respelled]
    dsimp only
    cases hipv6 : x.ipv6 with
    | true =>
      rw [hipv6] at hold
      rcases x.user with _ | ⟨u, _ | w⟩ <;> exact hold
    | false =>
      rw [hipv6] at hold
      rcases hu : x.user with _ | ⟨u, _ | w⟩
      · rw [hu] at hold
        exact hold
      · rw [hu] at hold
        exact ⟨hold.1, fun _ => List.append_ne_nil_of_right_ne_nil _ ht⟩
      · rw [hu] at hold
        exact hold
  port ds hds := by
    rw [respelled] at hds
    dsimp only at hds
    split at hds
    · obtain rfl := Option.mem_some.mp hds
      exact portWF_decimalBytes (portOf_le h)
    · exact nomatch hds

theorem canonical_wf (h : x.WF) : x.canonical.WF := by
  refine respelled_wf h (List.append_ne_nil_of_left_ne_nil ?_ _)
  dsimp only
  split
  · exact List.cons_ne_nil slash []
  next hne => exact hne

/-- The directory ends in a slash, and with the basename it is the path. -/
theorem dir_append (x : Parts) : (∃ a, x.dir = a ++ [slash]) ∧
    x.dir ++ getBasename x.tail.path = if x.tail.path = [] then [slash] else x.tail.path := by
  by_cases hpath : x.tail.path = []
  · rw [dir, if_pos hpath, if_pos hpath, hpath]
    exact ⟨⟨[], rfl⟩, rfl⟩
  · obtain ⟨a, b, hsplit, hb⟩ := exists_basename x.tail hpath
    have hdir : x.dir = a ++ [slash] := by
      rw [dir, if_neg hpath, hsplit, getBasename_append hb, List.append_cons]
      refine List.take_left' ?_
      simp only [List.length_append, List.length_singleton]
      omega
    refine ⟨⟨a, hdir⟩, ?_⟩
    rw [if_neg hpath, hdir, hsplit, getBasename_append hb, List.append_assoc]
    rfl

/-- What is put together of the parts and of a directory, a file and a query. -/
theorem construct_eq (h : x.WF) (dir file query : Bytes) (t : Tail) :
    construct { x.struct with dir, file, query } = x.scheme ++ (sep ++
      (renderUser (x.respelled t).user ++ (renderHost x.ipv6 x.host ++
        (Tail.part colon (x.respelled t).port ++ (dir ++
          (if dir = [] ∨ dir.getLast? ≠ some slash then [slash] else []) ++ file ++ query))))) := by
  have huser : (if x.struct.username ≠ [] then percentEncode x.struct.username ++
      (if x.struct.hasPassword then [colon] ++ percentEncode x.struct.password else []) ++ [atmark]
      else []) = renderUser (x.respelled t).user := by
    rcases hu : x.user with _ | ⟨u, w⟩
    · simp [struct, respelled, renderUser, hu]
    · have hne : percentDecode u ≠ [] := fun hnil =>
        (h.user u w hu).1.ne_nil (percentDecode_eq_nil.mp hnil)
      cases w with
      | none => simp [struct, respelled, renderUser, Tail.part, hu, hne]
      | some w => simp [struct, respelled, renderUser, Tail.part, hu, hne]
  have hhost : (if x.struct.ipv6LiteralAddress then [lbracket] ++ x.struct.host ++ [rbracket]
      else x.struct.host) = renderHost x.ipv6 x.host := by
    cases hipv6 : x.ipv6 <;> simp [struct, renderHost, hipv6]
  have hport : (if x.struct.port ≠ 0 ∧ getDefaultPort x.struct.protocol ≠ x.struct.port then
      [colon] ++ decimalBytes x.struct.port else []) = Tail.part colon (x.respelled t).port := by
    by_cases hwrite : x.portOf ≠ 0 ∧ getDefaultPort x.scheme ≠ x.portOf
    · have hvalue : (x.respelled t).port = some (decimalBytes x.portOf) := if_pos hwrite
      rw [hvalue]
      exact if_pos hwrite
    · have hvalue : (x.respelled t).port = none := if_neg hwrite
      rw [hvalue]
      exact if_neg hwrite
  rw [construct]
  dsimp only
  rw [huser, hhost, hport]
  simp [struct, sep]

/-- What is put together is the URI in the spelling of `construct`. -/
theorem construct_struct (h : x.WF) : construct x.struct = x.canonical.render := by
  obtain ⟨⟨a, ha⟩, hdir⟩ := x.dir_append
  have hslash : (if x.dir = [] ∨ x.dir.getLast? ≠ some slash then [slash] else []) = [] :=
    if_neg (by simp [ha])
  have hparts := construct_eq h x.dir (getBasename x.tail.path) (Tail.part question x.tail.query)
    x.canonical.tail
  rw [hslash, List.append_nil, hdir] at hparts
  refine hparts.trans ?_
  rw [render, after, Tail.render]
  simp only [canonical, respelled, Tail.part, List.append_nil]

/-- The other spelling changes nothing. -/
theorem struct_canonical (x : Parts) : x.canonical.struct = x.struct := by
  have hport : x.canonical.portOf = x.portOf := by
    by_cases hwrite : x.portOf ≠ 0 ∧ getDefaultPort x.scheme ≠ x.portOf
    · have hvalue : x.canonical.port = some (decimalBytes x.portOf) := if_pos hwrite
      rw [portOf, hvalue]
      simp only [Option.map_some, Option.getD_some, foldl_decimalBytes, Int.toNat_natCast]
      exact if_neg hwrite.1
    · have hvalue : x.canonical.port = none := if_neg hwrite
      have hdefault : getDefaultPort x.scheme = x.portOf := by
        by_cases hzero : x.portOf = 0
        · rw [hzero]
          unfold portOf at hzero
          dsimp only at hzero
          split at hzero
          · exact hzero
          · contradiction
        · exact not_not.mp fun hne => hwrite ⟨hzero, hne⟩
      rw [portOf, hvalue]
      exact hdefault
  have hpath : getBasename x.canonical.tail.path = getBasename x.tail.path ∧
      x.canonical.dir = x.dir := by
    by_cases hnil : x.tail.path = []
    · simp [canonical, respelled, dir, hnil, getBasename]
    · simp [canonical, respelled, dir, hnil]
  have huser : x.canonical.user.elim [] (fun u => percentDecode u.1) =
      x.user.elim [] fun u => percentDecode u.1 := by
    rcases hu : x.user with _ | u
    · simp [canonical, respelled, hu]
    · simp [canonical, respelled, hu, percentDecode_percentEncode]
  have hpasswd : (x.canonical.user.bind Prod.snd).isSome = (x.user.bind Prod.snd).isSome ∧
      (x.canonical.user.bind Prod.snd).elim [] percentDecode =
        (x.user.bind Prod.snd).elim [] percentDecode := by
    rcases hu : x.user with _ | ⟨u, _ | w⟩
    · simp [canonical, respelled, hu]
    · simp [canonical, respelled, hu]
    · simp [canonical, respelled, hu, percentDecode_percentEncode]
  rw [struct, struct, hport, hpath.1, hpath.2, huser, hpasswd.1, hpasswd.2]
  rfl

/-- No NUL is written. -/
theorem ne_zero_canonical (h : ∀ c ∈ x.render, c ≠ 0) : ∀ c ∈ x.canonical.render, c ≠ 0 := by
  simp only [render, after, Tail.render, List.mem_append] at h ⊢
  have hsep : ∀ c ∈ sep, c ≠ 0 := by decide +kernel
  have hpart : ∀ {a : UInt8} {q : Option Bytes}, a ≠ 0 → (∀ s ∈ q, ∀ c ∈ s, c ≠ 0) →
      ∀ c ∈ Tail.part a q, c ≠ 0 := by
    intro a q ha hq c hc
    rcases q with _ | s
    · cases hc
    · obtain rfl | hc := List.mem_cons.mp hc
      · exact ha
      · exact hq s rfl c hc
  rintro c (hc | hc | hc | hc | hc | hc | hc | hc)
  · exact h c (.inl hc)
  · exact hsep c hc
  · rcases hu : x.user with _ | ⟨u, w⟩
    · rw [canonical, respelled, hu] at hc
      cases hc
    · have hmap : x.canonical.user = some (percentEncode (percentDecode u),
          w.map fun w => percentEncode (percentDecode w)) := by rw [canonical, respelled, hu]; rfl
      rw [hmap, renderUser, List.mem_append, List.mem_append] at hc
      obtain hc | hc | hc := hc
      · exact (ordinary_percentEncode hc).1
      · refine hpart (by decide) (fun s hs c hc => ?_) c hc
        obtain ⟨w, -, rfl⟩ := Option.map_eq_some_iff.mp hs
        exact (ordinary_percentEncode hc).1
      · obtain rfl := List.mem_singleton.mp hc
        decide
  · exact h c (.inr (.inr (.inr (.inl hc))))
  · refine hpart (by decide) (fun s hs c hc => ?_) c hc
    rw [canonical, respelled] at hs
    dsimp only at hs
    split at hs
    · obtain rfl := Option.mem_some.mp hs
      rintro rfl
      exact absurd (isDigit_decimalBytes hc) (by decide)
    · cases hs
  · change c ∈ if x.tail.path = [] then [slash] else x.tail.path at hc
    split at hc
    · obtain rfl := List.mem_singleton.mp hc
      decide
    · exact h c (.inr (.inr (.inr (.inr (.inr (.inl hc))))))
  · exact h c (.inr (.inr (.inr (.inr (.inr (.inr (.inl hc)))))))
  · cases hc

end Parts

/-! ## The two directions -/

/-- `uri_split` reports the places of the parts of a string, and these are in order. -/
def SplitsRight (s : Bytes) : Prop :=
  ∀ res, uriSplit s = some res → Parts.WellReported (cstr s) res ∧
    ∀ x : Parts, x.WF → cstr s = x.render → res = x.places

/-- What is put together from what was taken apart is taken apart in the same way. -/
def RoundTrips (s : Bytes) : Prop :=
  ∀ us, parse s = .accepted us → (us.hasPassword = true → us.username ≠ []) →
    parse (construct us) = .accepted us ∧ SplitsRight (construct us)

section Strings

open Parts

variable {x : Parts} {s : Bytes}

theorem cstr_eq (h : ∀ c ∈ s, c ≠ 0) : cstr s = s :=
  List.takeWhile_eq_self_iff.mpr fun c hc => decide_eq_true (h c hc)

theorem ne_zero_of_mem_cstr {c : UInt8} (h : c ∈ cstr s) : c ≠ 0 :=
  of_decide_eq_true (List.mem_takeWhile_imp (p := fun c => decide (c ≠ 0)) h)

theorem uriSplit_render (h : x.WF) (hs : cstr s = x.render) :
    uriSplit s = some x.places.truncate := by
  rw [uriSplit, hs, scan_render h, Option.map_some, report_marks h]

/-- What is not put together from parts is rejected. -/
theorem uriSplit_eq_none (h : ∀ x : Parts, x.WF → cstr s ≠ x.render) : uriSplit s = none := by
  rcases hscan : scan .beforeScheme {} 0 (cstr s) with _ | r
  · rw [uriSplit, hscan, Option.map_none]
  · obtain ⟨x, hx, hs, -⟩ := of_scan hscan
    exact absurd hs (h x hx)

/-- The places are reported exactly where they fit, and are in order where there is a host. -/
theorem splitsRight_iff (h : x.WF) (hs : cstr s = x.render) :
    SplitsRight s ↔ x.host ≠ [] ∧ x.places.Fits := by
  have hsplit := uriSplit_render h hs
  constructor
  · intro hright
    obtain ⟨hwell, hplaces⟩ := hright _ hsplit
    have hfits := (UriSplitResult.truncate_eq_iff _).mp (hplaces x h hs)
    refine ⟨?_, hfits⟩
    obtain ⟨f, hf, hpos⟩ := hwell.host
    rw [hplaces x h hs] at hf
    obtain rfl := Option.mem_some.mp hf
    exact List.length_pos_iff.mp hpos
  · rintro ⟨hhost, hfits⟩ res hres
    have htruncate := (UriSplitResult.truncate_eq_iff _).mpr hfits
    obtain rfl : x.places = res := by
      rw [hsplit, htruncate] at hres
      exact Option.some.inj hres
    refine ⟨hs ▸ wellReported h hhost, fun y hy hsy => ?_⟩
    rw [render_injective h hy (hs.symm.trans hsy)]

/-- Where everything fits, `parse` reads the parts. -/
theorem parse_render (h : x.WF) (hs : cstr s = x.render) (hfits : x.places.Fits) :
    parse s = .accepted x.struct := by
  rw [parse, uriSplit_render h hs, (UriSplitResult.truncate_eq_iff _).mpr hfits]
  dsimp only
  rw [hs, structOf_places]

/-- A URI is split right and put together again exactly where it has a host and neither it nor the
URI that is put together has a place beyond 16 bits. -/
theorem splitsRight_and_roundTrips_iff (s : Bytes) : SplitsRight s ∧ RoundTrips s ↔
    ∀ x : Parts, x.WF → cstr s = x.render →
      x.host ≠ [] ∧ x.places.Fits ∧ x.canonical.places.Fits := by
  by_cases hparts : ∃ x : Parts, x.WF ∧ cstr s = x.render
  · obtain ⟨x, h, hs⟩ := hparts
    have hzero : ∀ c ∈ x.render, c ≠ 0 := fun c hc => ne_zero_of_mem_cstr (hs ▸ hc)
    have hcanonical := cstr_eq (ne_zero_canonical hzero)
    rw [splitsRight_iff h hs]
    constructor
    · rintro ⟨⟨hhost, hfits⟩, htrip⟩ y hy hsy
      obtain rfl := render_injective h hy (hs.symm.trans hsy)
      have hpasswd : x.struct.hasPassword = true → x.struct.username ≠ [] := by
        intro hpasswd hname
        rcases hu : x.user with _ | ⟨u, w⟩
        · simp [struct, hu] at hpasswd
        · rw [struct, hu] at hname
          exact (h.user u w hu).1.ne_nil (percentDecode_eq_nil.mp hname)
      obtain ⟨-, hright⟩ := htrip _ (parse_render h hs hfits) hpasswd
      rw [construct_struct h] at hright
      exact ⟨hhost, hfits, ((splitsRight_iff (canonical_wf h) hcanonical).mp hright).2⟩
    · intro hcond
      obtain ⟨hhost, hfits, hfits'⟩ := hcond x h hs
      refine ⟨⟨hhost, hfits⟩, fun us hus _ => ?_⟩
      obtain rfl : x.struct = us := Outcome.accepted.inj ((parse_render h hs hfits).symm.trans hus)
      have hwf := canonical_wf h
      rw [construct_struct h, ← struct_canonical x]
      refine ⟨parse_render hwf hcanonical hfits', ?_⟩
      exact (splitsRight_iff hwf hcanonical).mpr ⟨hhost, hfits'⟩
  · have hall : ∀ x : Parts, x.WF → cstr s ≠ x.render := fun x h hs => hparts ⟨x, h, hs⟩
    have hnone := uriSplit_eq_none hall
    refine iff_of_true ⟨fun res hres => ?_, fun us hus => ?_⟩ fun x h hs => absurd hs (hall x h)
    · exact nomatch hnone.symm.trans hres
    · rw [parse, hnone] at hus
      exact nomatch hus

/-- The host of `http://a@/x` is reported as empty. -/
theorem empty_host_counterexample : let s := "http://a@/x".toUTF8.toList
    ∃ res, uriSplit s = some res ∧ ¬ WellReported (cstr s) res := by
  intro s
  have hsplit : (uriSplit s).map (·.host) = some (some ⟨9, 0⟩) := by decide +kernel
  obtain ⟨res, hres, hhost⟩ := Option.map_eq_some_iff.mp hsplit
  refine ⟨res, hres, fun hwell => ?_⟩
  obtain ⟨f, hf, hpos⟩ := hwell.host
  rw [hhost] at hf
  obtain rfl := Option.mem_some.mp hf
  exact absurd hpos (by decide)

end Strings

end FluxCore.Uri
