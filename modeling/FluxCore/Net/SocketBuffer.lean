import FluxCore.Lib.Run
import Mathlib.Algebra.GroupWithZero.Nat

/-!
# The send buffer of a socket

`SocketBuffer` has a queue of entries that are still to be sent and how much of the first of them
is sent (`offset_`). `send` hands as many entries to `writeVector` as fit into one call and takes
what the socket accepted off the queue: it may end in the first entry, between two, or inside a
later one. What was accepted is always a prefix of what was pushed, up to `position` (`Inv`).
-/

namespace FluxCore.Net

/-- An entry of the queue, with the calls that its `ProgressUpdate` got. -/
structure BufEntry where
  data : List UInt8
  nonempty : data ≠ []
  updates : List (Nat × Bool) := []

namespace BufEntry

def getLength (e : BufEntry) : Nat := e.data.length

def progressUpdate (length : Nat) (complete : Bool) (e : BufEntry) : BufEntry :=
  { e with updates := e.updates ++ [(length, complete)] }

end BufEntry

/-- The buffer; and what came of it: the bytes that the socket accepted, and the entries that have
left the queue. -/
structure SocketBuffer where
  bufq : List BufEntry := []
  offset : Nat := 0
  accepted : List UInt8 := []
  left : List BufEntry := []

/-- What `writeVector` returns if it is given enough, and what the socket then wants. -/
structure Write where
  slen : Nat
  wantRead : Bool
  wantWrite : Bool

/-- How a turn of the loop of `send` ends. -/
inductive Turn where
  | next
  | fin
  | closed
  deriving DecidableEq

namespace SocketBuffer

def pushBytes (bytes : List UInt8) (s : SocketBuffer) : SocketBuffer :=
  if h : bytes ≠ [] then { s with bufq := s.bufq ++ [{ data := bytes, nonempty := h }] } else s

def pushStr (data : List UInt8) (s : SocketBuffer) : SocketBuffer :=
  if h : data ≠ [] then { s with bufq := s.bufq ++ [{ data, nonempty := h }] } else s

/-- The most bytes of a call of `writeVector`, but for a first entry that is longer. -/
def amount : Int := 64 * 1024

/-- The entries behind the first that go into the same call, `num` of which are in it. -/
def gather (iovMax : Nat) : Nat → Int → List BufEntry → List BufEntry
  | _, _, [] => []
  | num, amount, e :: es =>
    if num < iovMax ∧ 0 < amount then
      if amount < e.getLength then [] else e :: gather iovMax (num + 1) (amount - e.getLength) es
    else []

/-- Takes `slen` bytes off the queue, of which `n` entries were sent, and says whether it stopped
inside an entry. It ends in `none` where the queue has no front. -/
def settle : Nat → Nat → SocketBuffer → Option (SocketBuffer × Bool)
  | 0, _, s => some (s, false)
  | n + 1, slen, s =>
    match s.bufq with
    | [] => none
    | buf :: rest =>
      if slen < buf.getLength then
        some ({ s with offset := slen, bufq := buf.progressUpdate slen false :: rest }, true)
      else
        settle n (slen - buf.getLength) { s with
          left := s.left ++ [buf.progressUpdate buf.getLength true], bufq := rest }

/-- A turn of the loop of `send`, where the call of `writeVector` comes to `w`: also how many bytes
were sent. -/
def turn (iovMax : Nat) (w : Write) (s : SocketBuffer) : Option (SocketBuffer × Nat × Turn) :=
  match s.bufq with
  | [] => none
  | front :: rest =>
    let firstlen := front.getLength - s.offset
    let batch := gather iovMax 1 (amount - firstlen) rest
    let iov := front.data.drop s.offset ++ batch.flatMap (·.data)
    let slen := min w.slen iov.length
    let wants := w.wantRead || w.wantWrite
    if slen = 0 ∧ ¬wants then some (s, 0, .closed)
    else
      let s := { s with accepted := s.accepted ++ iov.take slen }
      if slen < firstlen then
        let s := { s with
          offset := s.offset + slen, bufq := front.progressUpdate slen false :: rest }
        some (s, slen, if wants then .fin else .next)
      else
        let s := { s with
          left := s.left ++ [front.progressUpdate firstlen true], bufq := rest, offset := 0 }
        (settle batch.length (slen - firstlen) s).map fun (s, stopped) =>
          (s, slen, if stopped then .fin else .next)

/-- The bytes still buffered. -/
def buffered (s : SocketBuffer) : List UInt8 :=
  match s.bufq with
  | [] => []
  | front :: rest => front.data.drop s.offset ++ rest.flatMap (·.data)

/-- The loop of `send`. -/
def sendLoop (iovMax : Nat) (socket : Nat → Write) :
    Nat → Nat → Nat → SocketBuffer → Option (SocketBuffer × Except String Nat)
  | 0, _, _, _ => none
  | fuel + 1, i, totalslen, s =>
    if s.bufq.isEmpty then some (s, .ok totalslen)
    else
      (turn iovMax (socket i) s).bind fun (s, slen, t) =>
        match t with
        | .next => sendLoop iovMax socket fuel (i + 1) (totalslen + slen) s
        | .fin => some (s, .ok (totalslen + slen))
        | .closed => some (s, .error "Failed to send data, cause: Connection closed.")

/-- `send`, where `socket i` is what the `i`-th call of `writeVector` comes to. There are no more
turns than bytes to send, and one in which nothing is sent. -/
def send (iovMax : Nat) (socket : Nat → Write) (s : SocketBuffer) :
    Option (SocketBuffer × Except String Nat) :=
  sendLoop iovMax socket (s.buffered.length + 1) 0 0 s

inductive Event where
  | pushBytes (bytes : List UInt8)
  | pushStr (data : List UInt8)
  | send (socket : Nat → Write)

def step (iovMax : Nat) (s : SocketBuffer) : Event → SocketBuffer
  | .pushBytes bytes => s.pushBytes bytes
  | .pushStr data => s.pushStr data
  | .send socket => ((s.send iovMax socket).map (·.1)).getD s

/-- The call returns or throws. -/
def Returns (iovMax : Nat) (s : SocketBuffer) : Event → Prop
  | .send socket => (s.send iovMax socket).isSome
  | _ => True

/-- The data of the calls of `pushBytes` and `pushStr`. -/
def pushed : List Event → List (List UInt8)
  | [] => []
  | .pushBytes bytes :: es => bytes :: pushed es
  | .pushStr data :: es => data :: pushed es
  | .send _ :: es => pushed es

end SocketBuffer

/-! ## What the entries were told -/

namespace BufEntry

variable {e : BufEntry} {n : Nat}

/-- The `ProgressUpdate` was told of `n` bytes, and not that this is all. -/
def Partial (n : Nat) (e : BufEntry) : Prop :=
  (∀ u ∈ e.updates, u.2 = false) ∧ (e.updates.map (·.1)).sum = n

/-- The `ProgressUpdate` was told of as many bytes as the entry has, and that this is all once, in
the last call. -/
def Complete (e : BufEntry) : Prop :=
  ∃ us n, e.updates = us ++ [(n, true)] ∧ (∀ u ∈ us, u.2 = false) ∧
    (us.map (·.1)).sum + n = e.getLength

theorem getLength_pos (e : BufEntry) : 0 < e.getLength := List.length_pos_iff.mpr e.nonempty

theorem Partial.progressUpdate (h : e.Partial n) (slen : Nat) :
    (e.progressUpdate slen false).Partial (n + slen) := by
  refine ⟨fun u hu => ?_, ?_⟩
  · rcases List.mem_append.mp hu with hu | hu
    · exact h.1 u hu
    · obtain rfl := List.mem_singleton.mp hu
      rfl
  · rw [BufEntry.progressUpdate, List.map_append, List.sum_append, h.2]
    simp

theorem Partial.complete (h : e.Partial n) (hn : n ≤ e.getLength) :
    (e.progressUpdate (e.getLength - n) true).Complete :=
  ⟨e.updates, e.getLength - n, rfl, h.1, by rw [h.2, Nat.add_sub_cancel' hn]; rfl⟩

theorem partial_zero (h : e.updates = []) : e.Partial 0 := by
  rw [Partial, h]
  exact ⟨fun _ hu => absurd hu List.not_mem_nil, rfl⟩

end BufEntry

namespace SocketBuffer

variable {iovMax : Nat} {s : SocketBuffer} {data : List (List UInt8)}

/-- The entries of the queue: `offset` bytes of the first are sent, of the others none. -/
def Pending (offset : Nat) : List BufEntry → Prop
  | [] => offset = 0
  | front :: rest => offset < front.getLength ∧ front.Partial offset ∧ ∀ e ∈ rest, e.updates = []

/-- **What the buffer is for.** `data` is what was pushed. -/
structure Delivered (data : List (List UInt8)) (s : SocketBuffer) : Prop where
  bytes : s.accepted ++ s.buffered = data.flatten
  entries : (s.left ++ s.bufq).map (·.data) = data.filter (!·.isEmpty)
  complete : ∀ e ∈ s.left, e.Complete
  pending : Pending s.offset s.bufq

/-- How many bytes have been taken off the queue. -/
def position (s : SocketBuffer) : Nat := (s.left.map (·.getLength)).sum + s.offset

/-- The entries, without what the socket accepted. -/
structure Queued (data : List (List UInt8)) (s : SocketBuffer) : Prop where
  entries : (s.left ++ s.bufq).map (·.data) = data.filter (!·.isEmpty)
  complete : ∀ e ∈ s.left, e.Complete
  pending : Pending s.offset s.bufq

/-- The invariant: what was accepted is what was taken off the queue. -/
structure Inv (data : List (List UInt8)) (s : SocketBuffer) : Prop extends Queued data s where
  accepted : s.accepted = data.flatten.take s.position

theorem flatten_filter (data : List (List UInt8)) :
    (data.filter (!·.isEmpty)).flatten = data.flatten := by
  induction data with
  | nil => rfl
  | cons d data ih =>
    rw [List.filter_cons]
    cases d with
    | nil => exact ih
    | cons b d =>
      rw [if_pos (by exact rfl), List.flatten_cons, List.flatten_cons, ih]

theorem flatMap_data (es : List BufEntry) : es.flatMap (·.data) = (es.map (·.data)).flatten :=
  List.flatMap_def

theorem length_flatMap_data (es : List BufEntry) :
    (es.flatMap (·.data)).length = (es.map (·.getLength)).sum := List.length_flatMap

theorem Queued.flatten_eq (h : Queued data s) :
    s.left.flatMap (·.data) ++ s.bufq.flatMap (·.data) = data.flatten := by
  rw [← flatten_filter, ← h.entries, flatMap_data, flatMap_data, List.map_append,
    List.flatten_append]

theorem Queued.position_le (h : Queued data s) : s.position ≤ data.flatten.length := by
  have hp := h.pending
  rw [← h.flatten_eq, List.length_append, length_flatMap_data, length_flatMap_data, position]
  cases hq : s.bufq with
  | nil =>
    rw [hq] at hp
    rw [show s.offset = 0 from hp]
    exact Nat.le_add_right ..
  | cons front rest =>
    rw [hq] at hp
    rw [List.map_cons, List.sum_cons]
    have := hp.1
    omega

/-- What is buffered is what has not been taken off. -/
theorem Queued.buffered_eq (h : Queued data s) : s.buffered = data.flatten.drop s.position := by
  rw [← h.flatten_eq, position, ← length_flatMap_data, List.drop_append,
    List.drop_eq_nil_of_le (by omega), List.nil_append, Nat.add_sub_cancel_left, buffered]
  have hp := h.pending
  cases hq : s.bufq with
  | nil => rw [List.flatMap_nil, List.drop_nil]
  | cons front rest =>
    rw [hq] at hp
    rw [List.flatMap_cons, List.drop_append_of_le_length hp.1.le]

theorem Inv.delivered (h : Inv data s) : Delivered data s where
  bytes := by rw [h.accepted, h.buffered_eq, List.take_append_drop]
  entries := h.entries
  complete := h.complete
  pending := h.pending

theorem pending_of_untouched {es : List BufEntry} (h : ∀ e ∈ es, e.updates = []) :
    Pending 0 es := by
  cases es with
  | nil => rfl
  | cons e es =>
    exact ⟨e.getLength_pos, BufEntry.partial_zero (h e (List.mem_cons_self ..)),
      fun e' he' => h e' (List.mem_cons_of_mem _ he')⟩

theorem complete_append {es : List BufEntry} {e : BufEntry} (h : ∀ e ∈ es, e.Complete)
    (he : e.Complete) : ∀ e' ∈ es ++ [e], e'.Complete := fun e' he' => by
  rcases List.mem_append.mp he' with he' | he'
  · exact h e' he'
  · obtain rfl := List.mem_singleton.mp he'
    exact he

theorem entries_pop {l : List BufEntry} {e e' : BufEntry} {rest : List BufEntry}
    (h : e'.data = e.data) : (l ++ [e'] ++ rest).map (·.data) = (l ++ e :: rest).map (·.data) := by
  rw [List.append_assoc, List.singleton_append, List.map_append, List.map_append, List.map_cons,
    List.map_cons, h]

theorem position_pop {l : List BufEntry} {e : BufEntry} :
    ((l ++ [e]).map (·.getLength)).sum = (l.map (·.getLength)).sum + e.getLength := by
  rw [List.map_append, List.sum_append, List.map_singleton, List.sum_singleton]

/-- The first entry leaves the queue. -/
theorem Queued.pop {front : BufEntry} {rest : List BufEntry} (h : Queued data s)
    (hq : s.bufq = front :: rest) (accepted : List UInt8) :
    let s' := { s with
      left := s.left ++ [front.progressUpdate (front.getLength - s.offset) true]
      bufq := rest, offset := 0, accepted }
    Queued data s' ∧ s'.position = s.position + (front.getLength - s.offset) := by
  have hp := h.pending
  rw [hq] at hp
  refine ⟨⟨?_, complete_append h.complete (hp.2.1.complete hp.1.le), pending_of_untouched hp.2.2⟩,
    ?_⟩
  · rw [← h.entries, hq]
    exact entries_pop rfl
  · have hlt := hp.1
    rw [position, position, position_pop]
    change _ + front.getLength + 0 = _
    omega

/-- A part of the first entry is sent. -/
theorem Queued.part {front : BufEntry} {rest : List BufEntry} (h : Queued data s)
    (hq : s.bufq = front :: rest) (slen : Nat) (hlt : slen < front.getLength - s.offset)
    (accepted : List UInt8) :
    let s' := { s with
      offset := s.offset + slen, bufq := front.progressUpdate slen false :: rest, accepted }
    Queued data s' ∧ s'.position = s.position + slen := by
  have hp := h.pending
  rw [hq] at hp
  refine ⟨⟨?_, h.complete, ?_, hp.2.1.progressUpdate slen, hp.2.2⟩, (Nat.add_assoc ..).symm⟩
  · rw [← h.entries, hq, List.map_append, List.map_append]
    rfl
  · change s.offset + slen < front.getLength
    omega

/-- The entries of the call behind the first: as many bytes are taken off as were sent. -/
theorem Queued.settle (n slen : Nat) (h : Queued data s) (h0 : s.offset = 0)
    (hnew : ∀ e ∈ s.bufq, e.updates = []) (hn : n ≤ s.bufq.length)
    (hslen : slen ≤ ((s.bufq.take n).map (·.getLength)).sum) :
    ∃ s' stopped, s.settle n slen = some (s', stopped) ∧ Queued data s' ∧
      s'.accepted = s.accepted ∧ s'.position = s.position + slen := by
  induction n generalizing s slen with
  | zero =>
    obtain rfl : slen = 0 := Nat.le_zero.mp hslen
    exact ⟨s, false, rfl, h, rfl, rfl⟩
  | succ n ih =>
    rw [SocketBuffer.settle]
    cases hq : s.bufq with
    | nil => rw [hq] at hn; cases hn
    | cons buf rest =>
      rw [hq] at hn hslen hnew
      rw [List.take_succ_cons, List.map_cons, List.sum_cons] at hslen
      dsimp only
      split
      next hlt =>
        obtain ⟨hs', hpos⟩ := h.part hq slen (by omega) s.accepted
        rw [h0, Nat.zero_add] at hs' hpos
        exact ⟨_, true, rfl, hs', rfl, hpos⟩
      next hge =>
        obtain ⟨hs', hpos⟩ := h.pop hq s.accepted
        rw [h0, Nat.sub_zero] at hs' hpos
        have hoff : { s with
            left := s.left ++ [buf.progressUpdate buf.getLength true], bufq := rest } =
            { s with
              left := s.left ++ [buf.progressUpdate buf.getLength true], bufq := rest
              offset := 0 } := by rw [← h0]
        obtain ⟨s'', stopped, heq, hs'', hacc, hpos'⟩ := ih (slen - buf.getLength) hs' rfl
          (fun e he => hnew e (List.mem_cons_of_mem _ he)) (Nat.le_of_succ_le_succ hn)
          (by change _ ≤ ((rest.take n).map (·.getLength)).sum; omega)
        refine ⟨s'', stopped, ?_, hs'', hacc, ?_⟩
        · rw [hoff]
          exact heq
        · rw [hpos', hpos]
          omega

theorem gather_prefix (iovMax num : Nat) (amount : Int) (es : List BufEntry) :
    gather iovMax num amount es <+: es := by
  induction es generalizing num amount with
  | nil => exact List.prefix_refl _
  | cons e es ih =>
    rw [gather]
    split
    · split
      · exact List.nil_prefix
      · exact (List.prefix_cons_inj e).mpr (ih ..)
    · exact List.nil_prefix

/-- The bytes of a call are the first that are buffered. -/
theorem Inv.accept (h : Inv data s) {iov : List UInt8} (hiov : iov <+: s.buffered) {slen : Nat}
    (hslen : slen ≤ iov.length) :
    s.accepted ++ iov.take slen = data.flatten.take (s.position + slen) := by
  obtain ⟨more, hmore⟩ := hiov
  rw [List.take_add, ← h.accepted, ← h.buffered_eq, ← hmore, List.take_append_of_le_length hslen]

/-- A turn of the loop takes what the socket accepts off the queue; if it goes on, that is
something. -/
theorem Inv.turn (iovMax : Nat) (h : Inv data s) (hne : s.bufq ≠ []) (w : Write) :
    ∃ s' slen t, s.turn iovMax w = some (s', slen, t) ∧ Inv data s' ∧
      s'.position = s.position + slen ∧ (t = .next → 0 < slen) := by
  obtain ⟨front, rest, hq⟩ := List.exists_cons_of_ne_nil hne
  have hp := h.pending
  rw [hq] at hp
  have hfirst : 0 < front.getLength - s.offset := by
    have := hp.1
    omega
  rw [SocketBuffer.turn, hq]
  dsimp only
  obtain ⟨more, hmore⟩ :=
    gather_prefix iovMax 1 (amount - ↑(front.getLength - s.offset)) rest
  generalize gather iovMax 1 (amount - ↑(front.getLength - s.offset)) rest = batch at hmore ⊢
  have hiov : front.data.drop s.offset ++ batch.flatMap (·.data) <+: s.buffered := by
    rw [buffered, hq, ← hmore]
    dsimp only
    rw [List.flatMap_append, ← List.append_assoc]
    exact List.prefix_append _ _
  have hlen : (front.data.drop s.offset ++ batch.flatMap (·.data)).length =
      front.getLength - s.offset + (batch.map (·.getLength)).sum := by
    rw [List.length_append, List.length_drop, length_flatMap_data]
    rfl
  generalize front.data.drop s.offset ++ batch.flatMap (·.data) = iov at hiov hlen ⊢
  have hslen : min w.slen iov.length ≤ iov.length := Nat.min_le_right ..
  generalize min w.slen iov.length = slen at hslen ⊢
  split
  next => exact ⟨s, 0, .closed, rfl, h, rfl, fun h => nomatch h⟩
  next hopen =>
    have hacc := h.accept hiov hslen
    split
    next hlt =>
      obtain ⟨hs', hpos⟩ := h.toQueued.part hq slen hlt (s.accepted ++ iov.take slen)
      refine ⟨_, slen, _, rfl, ⟨hs', hacc.trans (by rw [← hpos])⟩, hpos, ?_⟩
      intro hnext
      split at hnext
      next => cases hnext
      next hwants => exact Nat.pos_of_ne_zero fun h0 => hopen ⟨h0, hwants⟩
    next hge =>
      obtain ⟨hs', hpos⟩ := h.toQueued.pop hq (s.accepted ++ iov.take slen)
      obtain ⟨s'', stopped, heq, hs'', hacc', hpos'⟩ := hs'.settle batch.length
        (slen - (front.getLength - s.offset)) rfl hp.2.2
        (by rw [← hmore, List.length_append]; omega)
        (by rw [← hmore, List.take_left']
            · omega
            · rfl)
      have hpos'' : s''.position = s.position + slen := by
        rw [hpos', hpos]
        omega
      refine ⟨s'', slen, if stopped then .fin else .next, ?_, ⟨hs'', ?_⟩, hpos'', fun _ => ?_⟩
      · rw [heq, Option.map_some]
      · rw [hacc', hpos'']
        exact hacc
      · omega

/-- The loop ends, since every turn but the last one takes something off the queue. -/
theorem Inv.sendLoop (h : Inv data s) (socket : Nat → Write) {fuel : Nat} (i totalslen : Nat)
    (hfuel : data.flatten.length - s.position < fuel) :
    ∃ s' r, s.sendLoop iovMax socket fuel i totalslen = some (s', r) ∧ Inv data s' := by
  induction fuel generalizing s i totalslen with
  | zero => omega
  | succ fuel ih =>
    rw [SocketBuffer.sendLoop]
    split
    next => exact ⟨s, _, rfl, h⟩
    next hne =>
      have hne' : s.bufq ≠ [] := fun hnil => hne (by rw [hnil]; rfl)
      obtain ⟨s', slen, t, heq, hs', hpos, hnext⟩ := h.turn iovMax hne' (socket i)
      rw [heq, Option.bind_some]
      cases t with
      | next =>
        have hle := hs'.position_le
        have hpos' := hnext rfl
        exact ih hs' (i + 1) (totalslen + slen) (by omega)
      | fin => exact ⟨s', _, rfl, hs'⟩
      | closed => exact ⟨s', _, rfl, hs'⟩

theorem Inv.send (iovMax : Nat) (h : Inv data s) (socket : Nat → Write) :
    ∃ s' r, s.send iovMax socket = some (s', r) ∧ Inv data s' := by
  refine h.sendLoop socket 0 0 ?_
  rw [h.buffered_eq, List.length_drop]
  omega

theorem Pending.push {offset : Nat} {es : List BufEntry} {e : BufEntry} (h : Pending offset es)
    (he : e.updates = []) : Pending offset (es ++ [e]) := by
  cases es with
  | nil =>
    obtain rfl : offset = 0 := h
    exact pending_of_untouched fun e' he' => (List.mem_singleton.mp he') ▸ he
  | cons front rest =>
    refine ⟨h.1, h.2.1, fun e' he' => ?_⟩
    rcases List.mem_append.mp he' with he' | he'
    · exact h.2.2 e' he'
    · obtain rfl := List.mem_singleton.mp he'
      exact he

theorem Inv.push (h : Inv data s) (bytes : List UInt8) :
    Inv (data ++ [bytes]) (s.pushBytes bytes) := by
  have hacc : s.accepted = (data ++ [bytes]).flatten.take s.position := by
    rw [List.flatten_append, List.take_append_of_le_length h.position_le]
    exact h.accepted
  rw [pushBytes]
  split
  next hne =>
    refine ⟨⟨?_, h.complete, h.pending.push rfl⟩, hacc⟩
    have hempty : bytes.isEmpty = false := List.isEmpty_eq_false_iff.mpr hne
    rw [← List.append_assoc, List.map_append, h.entries, List.filter_append,
      List.filter_cons_of_pos (by rw [hempty]; rfl), List.filter_nil, List.map_singleton]
  next hnil =>
    refine ⟨⟨?_, h.complete, h.pending⟩, hacc⟩
    obtain rfl := not_ne_iff.mp hnil
    rw [h.entries, List.filter_append, List.filter_cons_of_neg (by exact Bool.false_ne_true),
      List.filter_nil, List.append_nil]

/-- The invariant at the end of a run. -/
theorem Inv.exec (h : Inv data s) (es : List Event) :
    Inv (data ++ pushed es) (exec (step iovMax) s es) := by
  induction es generalizing s data with
  | nil =>
    rw [pushed, List.append_nil]
    exact h
  | cons e es ih =>
    cases e with
    | pushBytes bytes =>
      have := ih (h.push bytes)
      rwa [List.append_assoc] at this
    | pushStr bytes =>
      have := ih (h.push bytes)
      rwa [List.append_assoc] at this
    | send socket =>
      obtain ⟨s', r, heq, hs'⟩ := h.send iovMax socket
      have := ih hs'
      rw [FluxCore.exec, step, heq]
      exact this

/-- **The socket gets what was pushed**: after any calls of `pushBytes`, `pushStr` and `send`,
whatever the socket accepts, each call of `send` comes to an end, and the bytes that the socket has
accepted and those that are still buffered are the bytes that were pushed; an entry that was sent
was reported in full, with the last report and no other one saying so. -/
theorem delivers (iovMax : Nat) (es : List Event) :
    Delivered (pushed es) (exec (step iovMax) {} es) ∧
      Along (step iovMax) (Returns iovMax) {} es := by
  have hinit : Inv [] {} := ⟨⟨rfl, fun _ he => absurd he List.not_mem_nil, rfl⟩, rfl⟩
  refine ⟨(hinit.exec es).delivered, ?_⟩
  have hstep : ∀ s e, (∃ data, Inv data s) → True → ∃ data, Inv data (step iovMax s e) :=
    fun s e ⟨data, hs⟩ _ => ⟨_, hs.exec [e]⟩
  refine along_of_along hstep ?_ ⟨_, hinit⟩
    (Along.of_forall fun _ _ => trivial)
  rintro s e ⟨data, hs⟩ -
  cases e with
  | pushBytes => trivial
  | pushStr => trivial
  | send socket =>
    obtain ⟨s', r, heq, -⟩ := hs.send iovMax socket
    rw [Returns, heq]
    rfl

end SocketBuffer

end FluxCore.Net
