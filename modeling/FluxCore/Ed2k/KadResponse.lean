import FluxCore.Ed2k.KadTags

/-!
# Kademlia responses

`kadProcessResponse` of `Ed2kDownloadCommand.cc`. The answers of a search response stand one behind
the other's list of tags, so a list that is skipped wrongly moves all that follow. The buffer is
what has been received; reads are as in `kadSkipTags`.
-/

namespace FluxCore.Ed2k

def KAD2_PROT : UInt8 := 0xE4

namespace kad2op

def BOOTSTRAP_RES : UInt8 := 0x09
def HELLO_RES : UInt8 := 0x19
def SEARCH_RES : UInt8 := 0x3B

end kad2op

/-- The size of the buffer that a response is received in. -/
def KAD_BUFFER_SIZE : Nat := 2048

/-- The command and the nodes that it knows. -/
structure KadState where
  command : DownloadCommand
  kadNodes : List (String × Nat) := []

namespace KadState

def addNode (st : KadState) (contact : String × Nat) : KadState :=
  if contact ∈ st.kadNodes then st
  else if st.kadNodes.length < 64 then { st with kadNodes := st.kadNodes ++ [contact] }
  else st

/-- A contact of an answer is a source, and a node as well. -/
def addContact (wallclock now : Nat) (st : KadState) (contact : String × Nat) : KadState :=
  { st with command := st.command.addSource contact.1 contact.2 wallclock now }.addNode contact

end KadState

/-- The address and the TCP port of the contact at an offset. -/
def contactAt (buf : Bytes) (off : Nat) : Option (String × Nat) := do
  let ipBytes ← bytesAt buf (off + 16) 4
  let tcpPort ← bytesAt buf (off + 22) 2
  some (ipFromWire ipBytes, (readLe16 tcpPort).toNat)

def bootstrapLoop (buf : Bytes) : Nat → Nat → KadState → Option KadState
  | 0, _, st => some st
  | n + 1, off, st =>
    if off + 25 ≤ buf.length then do
      let contact ← contactAt buf off
      bootstrapLoop buf n (off + 25) (if 0 < contact.2 then st.addNode contact else st)
    else some st

variable (wallclock now : Nat)

def searchLoop (buf : Bytes) : Nat → Nat → KadState → Option KadState
  | 0, _, st => some st
  | n + 1, off, st =>
    if buf.length < off + 26 then some st
    else do
      let contact ← contactAt buf off
      let _answerType ← bytesAt buf (off + 25) 1
      let st := if 0 < contact.2 then st.addContact wallclock now contact else st
      match ← kadSkipTags buf (off + 26) with
      | none => some st
      | some next => searchLoop buf n next st

/-- The state after a datagram; `none` where a byte beyond its end is read. -/
def kadProcessResponse (buf : Bytes) (st : KadState) : Option KadState :=
  if buf.length < 2 then some st
  else do
    let head ← bytesAt buf 0 2
    if head.getD 0 0 ≠ KAD2_PROT then some st
    else
      let opcode := head.getD 1 0
      if opcode = kad2op.BOOTSTRAP_RES ∧ 22 ≤ buf.length then do
        let count ← bytesAt buf 21 1
        bootstrapLoop buf (count.getD 0 0).toNat 22 st
      else if opcode = kad2op.SEARCH_RES ∧ 19 ≤ buf.length then do
        let count ← bytesAt buf 18 1
        searchLoop wallclock now buf (count.getD 0 0).toNat 19 st
      else if opcode = kad2op.HELLO_RES ∧ 27 ≤ buf.length then do
        let contact ← contactAt buf 2
        some (if 0 < contact.2 then st.addNode contact else st)
      else some st

/-! ## Search responses as they are written -/

structure KadContact where
  id : Bytes
  ip : Bytes
  udpPort : UInt16
  tcpPort : UInt16
  version : UInt8
  length_id : id.length = 16
  length_ip : ip.length = 4

structure KadAnswer where
  contact : KadContact
  type : UInt8
  tags : List KadTag
  wf : ∀ t ∈ tags, t.WF
  few : tags.length < 2 ^ 8

namespace KadContact

def render (c : KadContact) : Bytes :=
  c.id ++ (c.ip ++ (writeLe16 c.udpPort ++ (writeLe16 c.tcpPort ++ [c.version])))

def source (c : KadContact) : String × Nat := (ipFromWire c.ip, c.tcpPort.toNat)

end KadContact

def KadAnswer.render (a : KadAnswer) : Bytes :=
  a.contact.render ++ a.type :: UInt8.ofNat a.tags.length :: renderTags a.tags

/-- The bytes of a response with so many announced answers. -/
def searchResponse (target : Bytes) (count : UInt8) (answers : Bytes) : Bytes :=
  KAD2_PROT :: kad2op.SEARCH_RES :: (target ++ count :: answers)

/-- The contacts with a port, in order. -/
def KadState.offer (st : KadState) (contacts : List KadContact) : KadState :=
  contacts.foldl (fun st c =>
    if 0 < c.source.2 then st.addContact wallclock now c.source else st) st

theorem KadState.offer_concat (st : KadState) (contacts : List KadContact) (c : KadContact) :
    st.offer wallclock now (contacts ++ [c]) =
      (st.offer wallclock now contacts).offer wallclock now [c] := List.foldl_append

/-! ## Reads -/

theorem contactAt_ne_none {buf : Bytes} {off : Nat} (h : off + 25 ≤ buf.length) :
    ∃ contact, contactAt buf off = some contact := by
  rw [contactAt, bytesAt_of_le (by omega), bytesAt_of_le (by omega)]
  exact ⟨_, rfl⟩

theorem bootstrapLoop_ne_none (buf : Bytes) (n off : Nat) (st : KadState) :
    bootstrapLoop buf n off st ≠ none := by
  induction n generalizing off st with
  | zero => exact nofun
  | succ n ih =>
    rw [bootstrapLoop]
    split
    next h =>
      obtain ⟨contact, hcontact⟩ := contactAt_ne_none h
      rw [hcontact, Option.bind_eq_bind, Option.bind_some]
      exact ih _ _
    · exact nofun

/-- The contact of an answer is taken before its tags are skipped. -/
theorem searchLoop_succ {buf : Bytes} {off : Nat} {contact : String × Nat} {next : Option Nat}
    (h : ¬ buf.length < off + 26) (hcontact : contactAt buf off = some contact)
    (hnext : kadSkipTags buf (off + 26) = some next) (n : Nat) (st : KadState) :
    let st' := if 0 < contact.2 then st.addContact wallclock now contact else st
    searchLoop wallclock now buf (n + 1) off st =
      next.elim (some st') fun next => searchLoop wallclock now buf n next st' := by
  have htype : ¬ buf.length < off + 25 + 1 := by omega
  simp only [searchLoop, if_neg h, hcontact, bytesAt_of_le htype, hnext, Option.bind_eq_bind,
    Option.bind_some]
  cases next with
  | none => rfl
  | some next => rfl

theorem searchLoop_ne_none (buf : Bytes) (n off : Nat) (st : KadState) :
    searchLoop wallclock now buf n off st ≠ none := by
  induction n generalizing off st with
  | zero => exact nofun
  | succ n ih =>
    by_cases h : buf.length < off + 26
    · rw [searchLoop, if_pos h]
      exact nofun
    obtain ⟨contact, hcontact⟩ := contactAt_ne_none (show off + 25 ≤ buf.length by omega)
    obtain ⟨next, hnext⟩ := Option.ne_none_iff_exists'.mp (kadSkipTags_ne_none buf (off + 26))
    rw [searchLoop_succ wallclock now h hcontact hnext]
    cases next with
    | none => exact nofun
    | some next => exact ih _ _

/-- No byte beyond the end of a datagram is read. -/
theorem kadProcessResponse_ne_none (buf : Bytes) (st : KadState) :
    kadProcessResponse wallclock now buf st ≠ none := by
  rw [kadProcessResponse]
  split
  · exact nofun
  next h2 =>
  rw [bytesAt_of_le (by omega), Option.bind_eq_bind, Option.bind_some]
  split
  · exact nofun
  dsimp only
  split
  next h =>
    rw [bytesAt_of_le (by omega), Option.bind_some]
    exact bootstrapLoop_ne_none _ _ _ _
  split
  next h =>
    rw [bytesAt_of_le (by omega), Option.bind_some]
    exact searchLoop_ne_none _ _ _ _ _ _
  split
  next h =>
    obtain ⟨contact, hcontact⟩ := contactAt_ne_none (show 2 + 25 ≤ buf.length by omega)
    rw [hcontact]
    exact nofun
  · exact nofun

/-! ## Answers -/

variable {wallclock now} {buf rest : Bytes} {off n : Nat}

@[simp] theorem KadContact.length_render (c : KadContact) : c.render.length = 25 := by
  simp [render, writeLe16, c.length_id, c.length_ip]

/-- The contact that stands at an offset is read. -/
theorem contactAt_render {c : KadContact} (h : buf.drop off = c.render ++ rest) :
    contactAt buf off = some c.source := by
  have hlen := congrArg List.length h
  rw [List.length_drop, List.length_append, c.length_render] at hlen
  have hip : buf.drop (off + 16) = c.ip ++ (writeLe16 c.udpPort ++ (writeLe16 c.tcpPort ++
      c.version :: rest)) := by
    rw [← List.drop_drop, h, KadContact.render, List.append_assoc, List.drop_left' c.length_id]
    simp only [List.append_assoc, List.singleton_append]
  have hport : buf.drop (off + 22) = writeLe16 c.tcpPort ++ c.version :: rest := by
    have hsix : (c.ip ++ writeLe16 c.udpPort).length = 6 := by
      rw [List.length_append, c.length_ip]
      rfl
    rw [show off + 22 = off + 16 + 6 from rfl, ← List.drop_drop, hip, ← List.append_assoc,
      List.drop_left' hsix]
  have hread : readLe16 ((buf.drop (off + 22)).take 2) = c.tcpPort := by
    rw [readLe16_take, hport, readLe16_writeLe16]
  rw [contactAt, bytesAt_of_le (by omega), bytesAt_of_le (by omega), hip,
    List.take_left' c.length_ip]
  exact congrArg (fun v : UInt16 => some (ipFromWire c.ip, v.toNat)) hread

/-- A list of tags that stands at an offset is skipped. -/
theorem kadSkipTags_render {tags : List KadTag} (hwf : ∀ t ∈ tags, t.WF)
    (hsmall : ∀ t ∈ tags, t.Small) (hfew : tags.length < 2 ^ 8)
    (h : buf.drop off = UInt8.ofNat tags.length :: (renderTags tags ++ rest)) :
    kadSkipTags buf off = some (some (off + 1 + (renderTags tags).length)) := by
  have hoff : (buf.take off).length = off := by
    have hne : buf.drop off ≠ [] := h ▸ List.cons_ne_nil _ _
    exact List.length_take_of_le (Nat.le_of_not_lt fun hlt => hne (List.drop_of_length_le hlt.le))
  have hbuf : buf = buf.take off ++ UInt8.ofNat tags.length :: (renderTags tags ++ rest) := by
    rw [← h, List.take_append_drop]
  have hskip := kadSkipTags_cons (buf.take off) (renderTags tags ++ rest) (UInt8.ofNat tags.length)
  rw [← hbuf, hoff, UInt8.toNat_ofNat_of_lt' hfew, tagsLen_render hwf hsmall] at hskip
  exact hskip

/-- No tag of a datagram is too big. -/
theorem small_of_length {tags : List KadTag} (hwf : ∀ t ∈ tags, t.WF)
    (h : (renderTags tags).length + 4 < 2 ^ 32) : ∀ t ∈ tags, t.Small := by
  induction tags with
  | nil => exact nofun
  | cons t tags ih =>
    rw [length_renderTags_cons] at h
    refine List.forall_mem_cons.mpr ⟨?_, ih (fun u hu => hwf u (.tail t hu)) (by omega)⟩
    rintro form hform rfl
    rw [KadTag.length_render hform, KadForm.size] at h
    omega

namespace KadAnswer

variable {a : KadAnswer}

@[simp] theorem length_render (a : KadAnswer) :
    a.render.length = 27 + (renderTags a.tags).length := by
  simp only [render, List.length_append, KadContact.length_render, List.length_cons]
  omega

/-- The contact of an answer is offered, and the answer is skipped. -/
theorem searchLoop_render (hbuf : buf.length ≤ KAD_BUFFER_SIZE)
    (h : buf.drop off = a.render ++ rest) (st : KadState) :
    searchLoop wallclock now buf (n + 1) off st =
      searchLoop wallclock now buf n (off + a.render.length)
        (st.offer wallclock now [a.contact]) := by
  have hlen := congrArg List.length h
  rw [List.length_drop, List.length_append, length_render] at hlen
  have htags : buf.drop (off + 26) =
      UInt8.ofNat a.tags.length :: (renderTags a.tags ++ rest) := by
    have h26 : (a.contact.render ++ [a.type]).length = 26 := by simp
    rw [← List.drop_drop, h, render, List.append_cons, List.append_assoc, List.drop_left' h26,
      List.cons_append]
  have hcontact : buf.drop off = a.contact.render ++
      (a.type :: UInt8.ofNat a.tags.length :: renderTags a.tags ++ rest) := by
    rw [h, render, List.append_assoc]
  have hsmall : ∀ t ∈ a.tags, t.Small := small_of_length a.wf (by
    rw [KAD_BUFFER_SIZE] at hbuf
    omega)
  rw [searchLoop_succ wallclock now (by omega) (contactAt_render hcontact)
    (kadSkipTags_render a.wf hsmall a.few htags), Option.elim_some, length_render]
  congr 1
  omega

end KadAnswer

/-- The contacts of answers are offered one after the other. -/
theorem searchLoop_answers (hbuf : buf.length ≤ KAD_BUFFER_SIZE) {answers : List KadAnswer}
    (h : buf.drop off = answers.flatMap KadAnswer.render ++ rest) (st : KadState) :
    searchLoop wallclock now buf (answers.length + n) off st =
      searchLoop wallclock now buf n (off + (answers.flatMap KadAnswer.render).length)
        (st.offer wallclock now (answers.map KadAnswer.contact)) := by
  induction answers generalizing off st with
  | nil => rw [List.length_nil, Nat.zero_add]; rfl
  | cons a answers ih =>
    rw [List.flatMap_cons, List.append_assoc] at h
    have htail : buf.drop (off + a.render.length) = answers.flatMap KadAnswer.render ++ rest := by
      rw [← List.drop_drop, h, List.drop_left]
    rw [List.length_cons, Nat.add_right_comm, a.searchLoop_render hbuf h, ih htail,
      List.flatMap_cons, List.length_append, Nat.add_assoc]
    rfl

/-- An answer whose tags are no list is the last one. -/
theorem searchLoop_last {c : KadContact} {type m : UInt8} {s : Bytes}
    (h : buf.drop off = c.render ++ type :: m :: s) (hwrap : NoWrap m.toNat s)
    (hno : ∀ k, ¬ TagsAre m.toNat s k) (st : KadState) :
    searchLoop wallclock now buf (n + 1) off st = some (st.offer wallclock now [c]) := by
  have hlen := congrArg List.length h
  rw [List.length_drop, List.length_append, c.length_render, List.length_cons] at hlen
  have h26 : (c.render ++ [type]).length = 26 := by simp
  have hcons : buf.drop off = (c.render ++ [type]) ++ m :: s := by rw [h, List.append_cons]
  have hpre : (buf.take off ++ (c.render ++ [type])).length = off + 26 := by
    rw [List.length_append, h26, List.length_take_of_le (by omega)]
  have hbuf : buf = (buf.take off ++ (c.render ++ [type])) ++ m :: s := by
    rw [List.append_assoc, ← hcons, List.take_append_drop]
  have hskip := kadSkipTags_cons (buf.take off ++ (c.render ++ [type])) s m
  have hnone : tagsLen m.toNat s = none :=
    Option.eq_none_iff_forall_ne_some.mpr fun k hk => hno k ((tagsLen_iff hwrap).mp hk)
  rw [← hbuf, hpre, hnone] at hskip
  rw [searchLoop_succ wallclock now (by omega) (contactAt_render h) hskip]
  rfl

/-- A response is read by the loop over its answers. -/
theorem kadProcessResponse_search {target : Bytes} (htarget : target.length = 16) (count : UInt8)
    (s : Bytes) (st : KadState) :
    kadProcessResponse wallclock now (searchResponse target count s) st =
      searchLoop wallclock now (searchResponse target count s) count.toNat 19 st := by
  have hlen : (searchResponse target count s).length = 19 + s.length := by
    simp only [searchResponse, List.length_cons, List.length_append]
    omega
  have hpre : searchResponse target count s =
      (KAD2_PROT :: kad2op.SEARCH_RES :: target) ++ count :: s := rfl
  have h18 : (KAD2_PROT :: kad2op.SEARCH_RES :: target).length = 18 := by
    rw [List.length_cons, List.length_cons, htarget]
  have hcount : (((searchResponse target count s).drop 18).take 1).getD 0 0 = count := by
    rw [getD_take (by decide), hpre, List.drop_left' h18]
    rfl
  have hprot : (((searchResponse target count s).drop 0).take 2).getD 0 0 = KAD2_PROT := rfl
  have hop : (((searchResponse target count s).drop 0).take 2).getD 1 0 = kad2op.SEARCH_RES := rfl
  have hother : ¬ (kad2op.SEARCH_RES = kad2op.BOOTSTRAP_RES ∧
      22 ≤ (searchResponse target count s).length) := fun h => absurd h.1 (by decide)
  rw [kadProcessResponse, if_neg (by omega), bytesAt_of_le (by omega), Option.bind_eq_bind,
    Option.bind_some, hprot, if_neg (not_not.mpr rfl)]
  dsimp only
  rw [hop, if_neg hother, if_pos ⟨rfl, by omega⟩, bytesAt_of_le (by omega),
    Option.bind_some, hcount]

/-- A response has these contacts. -/
def Decodes (target : Bytes) (count : UInt8) (s : Bytes) (contacts : List KadContact) : Prop :=
  ∀ wallclock now st, kadProcessResponse wallclock now (searchResponse target count s) st =
    some (st.offer wallclock now contacts)

variable {target tail : Bytes} {count : UInt8} {answers : List KadAnswer}

theorem drop_searchResponse (htarget : target.length = 16) (count : UInt8) (s : Bytes) :
    (searchResponse target count s).drop 19 = s := by
  have h19 : (KAD2_PROT :: kad2op.SEARCH_RES :: (target ++ [count])).length = 19 := by
    simp only [List.length_cons, List.length_append, List.length_nil]
    omega
  have hpre : searchResponse target count s =
      (KAD2_PROT :: kad2op.SEARCH_RES :: (target ++ [count])) ++ s := by simp [searchResponse]
  rw [hpre, List.drop_left' h19]

theorem decodes_answers (htarget : target.length = 16)
    (hbuf : (searchResponse target count (answers.flatMap KadAnswer.render ++ tail)).length ≤
      KAD_BUFFER_SIZE) (hcount : count.toNat = answers.length) :
    Decodes target count (answers.flatMap KadAnswer.render ++ tail)
      (answers.map KadAnswer.contact) := by
  intro wallclock now st
  rw [kadProcessResponse_search htarget, hcount]
  exact searchLoop_answers (n := 0) hbuf (drop_searchResponse htarget _ _) st

theorem decodes_last {c : KadContact} {type m : UInt8} {s : Bytes} (htarget : target.length = 16)
    (hbuf : (searchResponse target count (answers.flatMap KadAnswer.render ++
      (c.render ++ type :: m :: s))).length ≤ KAD_BUFFER_SIZE)
    (hcount : answers.length < count.toNat) (hwrap : NoWrap m.toNat s)
    (hno : ∀ k, ¬ TagsAre m.toNat s k) :
    Decodes target count (answers.flatMap KadAnswer.render ++ (c.render ++ type :: m :: s))
      (answers.map KadAnswer.contact ++ [c]) := by
  intro wallclock now st
  obtain ⟨n, hn⟩ := Nat.exists_eq_add_of_lt hcount
  have hdrop := drop_searchResponse htarget count
    (answers.flatMap KadAnswer.render ++ (c.render ++ type :: m :: s))
  rw [kadProcessResponse_search htarget, hn, Nat.add_assoc, searchLoop_answers hbuf hdrop,
    KadState.offer_concat]
  have hlast := hdrop ▸ List.drop_drop (i := (answers.flatMap KadAnswer.render).length)
  rw [List.drop_left] at hlast
  exact searchLoop_last hlast.symm hwrap hno _

/-- Where the count `c` stands behind `pre`, the skipping succeeds exactly on so many tags. -/
def SkipsExactly (pre : Bytes) (c : UInt8) (rest : Bytes) : Prop :=
  ∀ off', kadSkipTags (pre ++ c :: rest) pre.length = some (some off') ↔
    Parses (pre ++ c :: rest) c.toNat (pre.length + 1) off'

/-- For all counts up to `n` that is so if and only if no length among so many tags wraps around. -/
theorem skipsExactly_iff (pre : Bytes) (n : UInt8) (rest : Bytes) :
    (∀ c ≤ n, SkipsExactly pre c rest) ↔ NoWrap n.toNat rest := by
  have hiff (c : UInt8) (off' : Nat) :
      (kadSkipTags (pre ++ c :: rest) pre.length = some (some off') ↔
        ∃ k, tagsLen c.toNat rest = some k ∧ off' = pre.length + 1 + k) ∧
      (Parses (pre ++ c :: rest) c.toNat (pre.length + 1) off' ↔
        ∃ k, TagsAre c.toNat rest k ∧ off' = pre.length + 1 + k) := by
    have hdrop : (pre ++ c :: rest).drop (pre.length + 1) = rest := by
      rw [← List.drop_drop, List.drop_left, List.drop_one, List.tail_cons]
    rw [kadSkipTags_cons, Option.some_inj, Option.map_eq_some_iff, Parses, hdrop]
    exact ⟨exists_congr fun k => and_congr_right fun _ => eq_comm, .rfl⟩
  rw [← skipsRight_iff]
  constructor
  · intro h m hm k
    have hm' : (UInt8.ofNat m).toNat = m :=
      UInt8.toNat_ofNat_of_lt' (Nat.lt_of_le_of_lt hm n.toNat_lt)
    have hle : UInt8.ofNat m ≤ n := by rwa [UInt8.le_iff_toNat_le, hm']
    have hk := h (UInt8.ofNat m) hle (pre.length + 1 + k)
    rw [(hiff _ _).1, (hiff _ _).2, hm'] at hk
    simpa [Nat.add_left_cancel_iff] using hk
  · intro h c hc off'
    rw [(hiff c off').1, (hiff c off').2]
    exact exists_congr fun k => and_congr_left fun _ => h c.toNat (UInt8.le_iff_toNat_le.mp hc) k

/-- Reads stay inside the data. Lists of tags are told from what is none if and only if no blob
among them has a length that, with its own four bytes, is no `uint32_t`; and the contacts of a search
response are those that were written, up to the first answer whose tags are no list. -/
theorem kadSkipTags_iff (pre rest : Bytes) :
    (∀ (p : Bytes) (off : Nat), kadSkipTags p off ≠ none ∧
      (p.length ≤ off → kadSkipTags p off = some none) ∧
      ∀ off', kadSkipTags p off = some (some off') → off' ≤ p.length) ∧
    (∀ n : UInt8, (∀ c ≤ n, SkipsExactly pre c rest) ↔ NoWrap n.toNat rest) ∧
    (∀ wallclock now buf st, kadProcessResponse wallclock now buf st ≠ none) ∧
    ∀ (target : Bytes) (count : UInt8) (answers : List KadAnswer), target.length = 16 →
      (∀ tail, (searchResponse target count (answers.flatMap KadAnswer.render ++ tail)).length ≤
          KAD_BUFFER_SIZE → count.toNat = answers.length →
        Decodes target count (answers.flatMap KadAnswer.render ++ tail)
          (answers.map KadAnswer.contact)) ∧
      ∀ (c : KadContact) (type m : UInt8) (s : Bytes),
        (searchResponse target count (answers.flatMap KadAnswer.render ++
          (c.render ++ type :: m :: s))).length ≤ KAD_BUFFER_SIZE →
        answers.length < count.toNat → NoWrap m.toNat s → (∀ k, ¬ TagsAre m.toNat s k) →
        Decodes target count (answers.flatMap KadAnswer.render ++ (c.render ++ type :: m :: s))
          (answers.map KadAnswer.contact ++ [c]) := by
  refine ⟨fun p off => ⟨kadSkipTags_ne_none p off, fun h => if_pos h, fun off' => kadSkipTags_le⟩,
    fun n => skipsExactly_iff pre n rest, kadProcessResponse_ne_none,
    fun target count answers htarget => ⟨?_, ?_⟩⟩
  · exact fun tail hbuf hcount => decodes_answers htarget hbuf hcount
  · exact fun c type m s hbuf hcount hwrap hno => decodes_last htarget hbuf hcount hwrap hno

/-- A source with a file name and a blob. -/
def namedAnswer : KadAnswer where
  contact :=
    { id := List.replicate 16 0xAB, ip := [10, 0, 0, 7], udpPort := 4672, tcpPort := 4662,
      version := 8, length_id := rfl, length_ip := rfl }
  type := 1
  tags := [⟨0x02, [0xF4], [0x61, 0x62]⟩, ⟨0x07, [0x01], [1, 2, 3]⟩]
  wf := by
    refine List.forall_mem_cons.mpr ⟨⟨by decide, .string, rfl, show 2 < 2 ^ 8 by decide⟩, fun t ht => ?_⟩
    obtain rfl := List.mem_singleton.mp ht
    exact ⟨by decide, .blob, rfl, show 3 < 2 ^ 32 by decide⟩
  few := by decide

theorem noWrap_oneByte : NoWrap 1 [0x09, 0x00, 0x05] := by
  rintro tags rest - hlt hs ⟨name, len, rest', -, -, rfl⟩
  obtain rfl := List.length_eq_zero_iff.mp (Nat.lt_one_iff.mp hlt)
  exact absurd (List.cons.inj hs).1 (by decide)

/-- The source is decoded, with bytes behind the answer, and a tag of one byte is skipped
exactly. -/
theorem kadSkipTags_iff_namedAnswer :
    Decodes (List.replicate 16 0) 1 ([namedAnswer].flatMap KadAnswer.render ++ [0xFF])
      [namedAnswer.contact] ∧
    ∀ c ≤ (1 : UInt8), SkipsExactly [0xE4] c [0x09, 0x00, 0x05] :=
  have h := kadSkipTags_iff [0xE4] [0x09, 0x00, 0x05]
  ⟨(h.2.2.2 (List.replicate 16 0) 1 [namedAnswer] rfl).1 [0xFF] (by decide) rfl,
    (h.2.1 1).mpr noWrap_oneByte⟩

/-- A blob that says that it has `2 ^ 32 - 4` bytes ends where its length begins. -/
theorem kadSkipTags_counterexample :
    let p : Bytes := [1, 0x07, 0, 0xFC, 0xFF, 0xFF, 0xFF]
    kadSkipTags p 0 = some (some 3) ∧ ¬ Parses p (p.getD 0 0).toNat 1 3 := by
  refine ⟨by decide, ?_⟩
  rintro ⟨k, ⟨tags, rest, hwf, hcount, heq, rfl⟩, hk⟩
  obtain ⟨t, rfl⟩ := List.length_eq_one_iff.mp hcount
  have hwraps : Wraps [0x07, 0, 0xFC, 0xFF, 0xFF, 0xFF] :=
    ⟨[], 0xFFFFFFFC, [], by decide, by decide, rfl⟩
  obtain ⟨k, hlen, hshort⟩ := hwraps.tagLen_eq
  obtain rfl : 2 = k := Option.some.inj ((by decide : tagLen _ = some 2).symm.trans hlen)
  rw [renderTags_cons] at heq
  have := hshort t _ (hwf t (List.mem_singleton_self t)) heq
  rw [length_renderTags_cons] at hk
  omega

end FluxCore.Ed2k
