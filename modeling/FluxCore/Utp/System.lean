import FluxCore.Utp.Output
import FluxCore.Lib.Run
import Mathlib.Data.Fintype.Basic

/-!
# Two connections and the network between them

The initiator exists from the start, the responder from the SYN on. The network holds the datagrams
under way to each side; it may deliver them in any order, and duplicate and drop them. An event is a
call of one side's owner, the hand-over of an outbox to the network, or what the network does.
-/

namespace FluxCore.Utp

inductive Side where
  | ini | resp
  deriving DecidableEq, Repr

instance : Fintype Side := ⟨{.ini, .resp}, fun x => by cases x <;> decide⟩

def Side.other : Side → Side
  | .ini => .resp
  | .resp => .ini

@[simp] theorem Side.other_other (x : Side) : x.other.other = x := by cases x <;> rfl

@[simp] theorem Side.other_ne (x : Side) : x.other ≠ x := by cases x <;> decide

@[simp] theorem Side.ne_other (x : Side) : x ≠ x.other := by cases x <;> decide

structure Pair where
  /-- Where the responder finds the initiator. -/
  iniAddr : String := ""
  iniPort : UInt16 := 0
  conn : Side → Option UtpConnection
  /-- The datagrams under way to each side. -/
  wire : Side → List Bytes := fun _ => []

/-- A call of the owner of a connection. -/
inductive Act where
  | write (data : Bytes)
  | read (cap : Nat)
  | close
  | tick (nowUs : UInt32)

def Act.run : Act → UtpConnection → UtpConnection
  | .write data, c => (c.write data).2
  | .read cap, c => (c.read cap).2
  | .close, c => c.close
  | .tick nowUs, c => c.processTick nowUs

namespace Pair

inductive Event where
  | act (x : Side) (a : Act)
  /-- The outbox of `x` goes to the network. -/
  | flush (x : Side)
  /-- The `i`-th datagram under way to `x` arrives. -/
  | deliver (x : Side) (i : Nat) (nowUs : UInt32)
  | duplicate (x : Side) (i : Nat)
  | drop (x : Side) (i : Nat)

def setConn (p : Pair) (x : Side) (c : UtpConnection) : Pair :=
  { p with conn := Function.update p.conn x (some c) }

def setWire (p : Pair) (x : Side) (ds : List Bytes) : Pair :=
  { p with wire := Function.update p.wire x ds }

/-- A SYN that reaches a side without a connection makes it the responder. -/
def accept (p : Pair) (x : Side) (d : Bytes) (nowUs : UInt32) : Pair :=
  match parsePacket d with
  | none => p
  | some (hdr, _) =>
    if hdr.type = ST_SYN then
      p.setConn x (.responder p.iniAddr p.iniPort hdr.connectionId hdr.seqNr nowUs)
    else p

def receive (p : Pair) (x : Side) (d : Bytes) (nowUs : UInt32) : Pair :=
  match p.conn x with
  | none => p.accept x d nowUs
  | some c => p.setConn x (c.handlePacket d nowUs)

def step (p : Pair) : Event → Pair
  | .act x a =>
    match p.conn x with
    | none => p
    | some c => p.setConn x (a.run c)
  | .flush x =>
    match p.conn x with
    | none => p
    | some c => (p.setConn x c.drainOutbox.2).setWire x.other (p.wire x.other ++ c.drainOutbox.1)
  | .deliver x i nowUs =>
    match (p.wire x)[i]? with
    | none => p
    | some d => (p.setWire x ((p.wire x).eraseIdx i)).receive x d nowUs
  | .duplicate x i =>
    match (p.wire x)[i]? with
    | none => p
    | some d => p.setWire x (p.wire x ++ [d])
  | .drop x i => p.setWire x ((p.wire x).eraseIdx i)

/-- An initiator that has just been built, with its SYN in its outbox. -/
def start (iniAddr : String) (iniPort : UInt16) (respAddr : String) (respPort : UInt16)
    (nowUs synTimeoutUs : UInt32) : Pair where
  iniAddr := iniAddr
  iniPort := iniPort
  conn
    | .ini => some (.initiator respAddr respPort nowUs synTimeoutUs)
    | .resp => none

section
variable (p : Pair) (x : Side) (c : UtpConnection) (ds : List Bytes)

@[simp] theorem setConn_conn_same : (p.setConn x c).conn x = some c := Function.update_self ..

@[simp] theorem setConn_conn_other : (p.setConn x c).conn x.other = p.conn x.other :=
  Function.update_of_ne x.other_ne ..

@[simp] theorem setConn_wire : (p.setConn x c).wire = p.wire := rfl

@[simp] theorem setWire_wire_same : (p.setWire x ds).wire x = ds := Function.update_self ..

@[simp] theorem setWire_wire_of_other : (p.setWire x.other ds).wire x = p.wire x :=
  Function.update_of_ne x.ne_other ..

theorem setWire_wire_of_ne {p : Pair} {x y : Side} {ds : List Bytes} (h : y ≠ x) :
    (p.setWire x ds).wire y = p.wire y := Function.update_of_ne h ..

@[simp] theorem setWire_conn : (p.setWire x ds).conn = p.conn := rfl

end

/-! ## What is under way -/

/-- The datagrams `x` has put out that may still arrive. -/
def out (p : Pair) (x : Side) (d : Bytes) : Prop :=
  (∃ c, p.conn x = some c ∧ d ∈ c.outbox) ∨ d ∈ p.wire x.other

end Pair

/-- What may have been put out after an operation: what had been before, and new datagrams. -/
def Adds (o : Bytes → Prop) (c c' : UtpConnection) (d : Bytes) : Prop :=
  o d ∨ d ∈ c'.outbox ∧ d ∉ c.outbox

section
variable {o : Bytes → Prop} {c c' : UtpConnection} {d : Bytes} {p : Pair} {x : Side}
  {ds : List Bytes}

theorem Adds.cases {P : PacketHeader → Bytes → Prop} {R : Bytes → Prop} (h : Adds o c c' d)
    (hemits : Emits c c' P) (hold : o d → R d) (hnew : Parses P d → R d) : R d := by
  rcases h with h | ⟨hd, hn⟩
  · exact hold h
  · obtain ⟨new, hout, hP⟩ := hemits
    rw [hout] at hd
    exact hnew (hP d ((List.mem_append.mp hd).resolve_left hn))

theorem Adds.of_outbox_eq (h : Adds o c c' d) (hout : c'.outbox = c.outbox) : o d := by
  rcases h with h | ⟨hd, hn⟩
  · exact h
  · exact absurd (hout ▸ hd) hn

namespace Pair

theorem out_setConn (h : p.conn x = some c) (hd : (p.setConn x c').out x d) :
    Adds (p.out x) c c' d := by
  rcases hd with ⟨c'', hc, hd⟩ | hd
  · rw [setConn_conn_same, Option.some.injEq] at hc
    subst hc
    by_cases hold : d ∈ c.outbox
    · exact .inl (.inl ⟨c, h, hold⟩)
    · exact .inr ⟨hd, hold⟩
  · exact .inl (.inr hd)

theorem out_setConn_new (hd : (p.setConn x c').out x d) : d ∈ c'.outbox ∨ p.out x d := by
  rcases hd with ⟨c'', hc, hd⟩ | hd
  · rw [setConn_conn_same, Option.some.injEq] at hc
    subst hc
    exact .inl hd
  · exact .inr (.inr hd)

theorem out_setConn_other (hd : (p.setConn x c').out x.other d) : p.out x.other d := by
  rcases hd with ⟨c'', hc, hd⟩ | hd
  · rw [setConn_conn_other] at hc
    exact .inl ⟨c'', hc, hd⟩
  · exact .inr hd

/-- The network holds no datagram that was not put out. -/
theorem out_setWire {y : Side} (hds : ∀ d ∈ ds, p.out x.other d) (hd : (p.setWire x ds).out y d) :
    p.out y d := by
  rcases hd with hd | hd
  · exact .inl hd
  · by_cases hy : y.other = x
    · subst hy
      rw [setWire_wire_same] at hd
      simpa using hds d hd
    · exact .inr (by rwa [setWire_wire_of_ne hy] at hd)

theorem out_of_wire (h : d ∈ p.wire x) : p.out x.other d := by
  refine .inr ?_
  rwa [Side.other_other]

theorem out_flush (h : p.conn x = some c) {y : Side}
    (hd : ((p.setConn x c.drainOutbox.2).setWire x.other
      (p.wire x.other ++ c.drainOutbox.1)).out y d) : p.out y d := by
  have hcases : y = x ∨ y = x.other := by cases x <;> cases y <;> simp [Side.other]
  rcases hcases with rfl | rfl
  · rcases hd with ⟨c', hc, hd⟩ | hd
    · rw [setWire_conn, setConn_conn_same, Option.some.injEq] at hc
      subst hc
      cases hd
    · rw [setWire_wire_same] at hd
      rcases List.mem_append.mp hd with hd | hd
      · exact .inr hd
      · exact .inl ⟨c, h, hd⟩
  · rcases hd with ⟨c', hc, hd⟩ | hd
    · rw [setWire_conn, setConn_conn_other] at hc
      exact .inl ⟨c', hc, hd⟩
    · rw [Side.other_other] at hd
      refine .inr ?_
      rwa [Side.other_other, ← setConn_wire p x c.drainOutbox.2, ← setWire_wire_of_other]

end Pair

end

end FluxCore.Utp
