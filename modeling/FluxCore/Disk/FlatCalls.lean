import FluxCore.Disk.FlatRuns
import FluxCore.Lib.Run

/-!
# Runs of a flat array

Over any sequence of accesses to an adaptor, mixed with calls of the other adaptors that share its
counter, each read gives the bytes last written, no write passes the end of a file, and inside the
pieces of the wanted files no access finds an entry without a `DiskWriter`.
-/

namespace FluxCore.Disk

open Program

variable {n : Nat}

section Runs

/-- The bytes lie inside one selected piece. -/
def InPiece (pieceLength : Nat) (fs : List FileEntry) (offset length : Nat) : Prop :=
  ∃ piece, Selected pieceLength fs piece ∧ piece * pieceLength ≤ offset ∧
    offset < (piece + 1) * pieceLength ∧ offset + length ≤ (piece + 1) * pieceLength

namespace Call

/-- The ranges of the bytes of adaptor `a` that a call accesses; the other calls of `a` are not
accesses. -/
def ranges (a : Fin n) : Call n → Option (List (Nat × Nat))
  | .readData b length offset => some (if b = a then [(offset, length)] else [])
  | .writeData b data offset => some (if b = a then [(offset, data.length)] else [])
  | .writeCache b set => some (if b = a then set.cells.map fun c => (c.goff, c.len) else [])
  | .tryCloseFile _ _ => some []
  | .openFile b | .initAndOpenFile b | .openExistingFile b | .closeFile b =>
    if b = a then none else some []

/-- The call accesses adaptor `a`, if it does, inside the download. -/
def Within (a : Fin n) (total : Nat) (c : Call n) : Prop :=
  ∃ rs ∈ c.ranges a, ∀ r ∈ rs, r.1 < total ∧ r.1 + r.2 ≤ total

/-- What is known of the bytes of adaptor `a` after a call: a write that throws may have been done
in part. -/
def after (a : Fin n) (m : Memory UInt8) :
    Call n → Except Thrown (List UInt8) → Memory UInt8
  | .writeData b data offset, .ok _ => if b = a then m.overwrite offset data else m
  | .writeData b data offset, .error _ => if b = a then m.forgetAll [(offset, data)] else m
  | .writeCache b set, .ok _ => if b = a then m.overwriteAll (writes set.cells) else m
  | .writeCache b set, .error _ => if b = a then m.forgetAll (writes set.cells) else m
  | _, _ => m

/-- A call as an access to a flat array of which `m` is known. -/
structure Flat (a : Fin n) (m : Memory UInt8) (w : World n) (c : Call n)
    (r : Except Thrown (List UInt8)) (w' : World n) : Prop where
  /-- A read gives the bytes as they are known, and all of them if they are known. -/
  reads : ∀ length offset, c = .readData a length offset → ∀ bytes, r = .ok bytes →
    bytes.length ≤ length ∧
    (∀ k < bytes.length, ∀ b, m (offset + k) = some b → bytes[k]? = some b) ∧
    (bytes.length < length → m (offset + bytes.length) = none)
  /-- No file is written behind its end. -/
  ends : ∀ i < (w.adaptors a).diskWriterEntries.length,
    (w'.file a i).drop ((w.adaptors a).entry i).fileEntry.length =
      (w.file a i).drop ((w.adaptors a).entry i).fileEntry.length
  /-- Inside selected pieces only files that cannot be opened or written make an access throw. -/
  throws : ∀ e, r = .error e → ∀ rs ∈ c.ranges a, rs ≠ [] →
    (∀ x ∈ rs, InPiece (w.adaptors a).pieceLength (w.adaptors a).fileEntries x.1 x.2) → w.Denied a e
  /-- The cache is written as its cells one by one. -/
  cache : ∀ set, c = .writeCache a set → ∀ x, r = .ok x → ∀ w'',
    (writeRuns a (writes set.cells)).exec w = some (.ok ⟨⟩, w'') →
    ∀ p < (w.adaptors a).total, w'.byteAt a p = w''.byteAt a p

end Call

section Steps

variable {w w' : World n} {a : Fin n} {m : Memory UInt8} {fs : List FileEntry}
  {pieceLength : Nat}

theorem InPiece.covered {offset length p : Nat} (h : InPiece pieceLength fs offset length)
    (hp : p = offset ∨ offset ≤ p ∧ p < offset + length) :
    Selected pieceLength fs (p / pieceLength) := by
  obtain ⟨piece, hsel, hle, hlt, hend⟩ := h
  have hdiv : p / pieceLength = piece :=
    Nat.div_eq_of_lt_le (by omega) (by omega)
  rwa [hdiv]

theorem Adaptor.Goes.agrees (hg : (w.adaptors a).Goes (w'.adaptors a)) (h : w.Agrees a m) :
    w'.Agrees a m := fun p hp b hb => by
  rw [hg.byteAt]
  rw [hg.steady.total] at hp
  exact h p hp b hb

/-- What holds before and after each call of a run. -/
structure World.Known (w : World n) (a : Fin n) (fs : List FileEntry) (pieceLength : Nat)
    (m : Memory UInt8) : Prop where
  ready : w.ReadyAs a fs pieceLength
  agrees : w.Agrees a m

theorem Adaptor.Goes.known (hg : (w.adaptors a).Goes (w'.adaptors a))
    (h : w.Known a fs pieceLength m) : w'.Known a fs pieceLength m :=
  ⟨h.ready.steady hg.steady hg.sound, hg.agrees h.agrees⟩

/-- A call that does not access the adaptor. -/
theorem Call.Flat.idle {c : Call n} {r : Except Thrown (List UInt8)} (hc : c.ranges a = some [])
    (hg : (w.adaptors a).Goes (w'.adaptors a)) : c.Flat a m w r w' := by
  refine ⟨?_, fun i _ => congrArg _ (hg.bytes i), ?_, ?_⟩
  · rintro length offset rfl
    simp [Call.ranges] at hc
  · rintro e - rs hrs hne
    rw [hc] at hrs
    cases hrs
    exact absurd rfl hne
  · rintro set rfl x - w'' hexec p hp
    simp only [Call.ranges, if_true, Option.some.injEq, List.map_eq_nil_iff] at hc
    rw [hc] at hexec
    cases hexec
    exact hg.byteAt p

end Steps

end Runs

section Ends

variable {α β : Type} {a b : Fin n}

/-- Without a limit on the open files no assertion stops the program. -/
def Ends (x : DiskM n α) : Prop :=
  ∀ w : World n, w.counter.rgman = none → ∃ r w', x.exec w = some (r, w') ∧ w'.counter.rgman = none

namespace Ends

variable {x : DiskM n α} {f : α → DiskM n β}

theorem pure (c : α) : Ends (Pure.pure c : DiskM n α) := fun w h => ⟨_, w, rfl, h⟩

theorem throw (e : Thrown) : Ends (MonadExcept.throw e : DiskM n α) := fun w h => ⟨_, w, rfl, h⟩

theorem bind (hx : Ends x) (hf : ∀ c, Ends (f c)) : Ends (x >>= f) := fun w h => by
  obtain ⟨r, w', hr, hw'⟩ := hx w h
  rw [exec_bind, hr]
  cases r with
  | ok c => exact hf c w' hw'
  | error e => exact ⟨_, w', rfl, hw'⟩

theorem ite {p : Prop} [Decidable p] {y : DiskM n α} (hx : p → Ends x) (hy : ¬p → Ends y) :
    Ends (if p then x else y) := by
  split
  next h => exact hx h
  next h => exact hy h

theorem get_bind {f : World n → DiskM n β} (hf : ∀ w, w.counter.rgman = none → Ends (f w)) :
    Ends (MonadState.get >>= f) := fun w h => hf w h w h

theorem adaptor_bind {f : Adaptor → DiskM n β} (hf : ∀ ad, Ends (f ad)) :
    Ends (adaptor a >>= f) := fun w h => hf (w.adaptors a) w h

theorem modifyAdaptor (g : Adaptor → Adaptor) : Ends (modifyAdaptor a g) := fun _ h => ⟨_, _, rfl, h⟩

theorem getRandomNumber {bound : Nat} (hpos : 0 < bound) :
    Ends (getRandomNumber bound : DiskM n Nat) := fun w h => by
  unfold Disk.getRandomNumber Program.assert
  rw [if_pos hpos]
  exact ⟨_, _, rfl, h⟩

theorem ensureMaxOpenFileLimit (k : Nat) : Ends (ensureMaxOpenFileLimit k : DiskM n PUnit) :=
  get_bind fun w h => by
    rw [h]
    exact .pure _

theorem tryCloseFile (k : Nat) : Ends (tryCloseFile a k) := by
  have hsome : ∀ left, Ends (closeSome a left) := fun left => by
    induction left with
    | zero => exact .pure _
    | succ left ih =>
      refine adaptor_bind fun ad => ite (fun _ => .pure _) fun hne => ?_
      exact (getRandomNumber (List.length_pos_iff.mpr hne)).bind fun _ =>
        (modifyAdaptor _).bind fun _ => ih
  exact (hsome k).bind fun _ => .pure _

theorem closeFile : Ends (closeFile a) :=
  adaptor_bind fun _ => (modifyAdaptor _).bind fun _ =>
    bind (get_bind fun w h => by rw [h]; exact .pure _) fun _ => modifyAdaptor _

theorem initAndOpenWriter (i : Nat) : Ends (initAndOpenWriter a i) :=
  get_bind fun _ _ => ite (fun _ => .modifyAdaptor _) fun _ => .throw _

theorem openEntry (i : Nat) (how : Opening) : Ends (openEntry a i how) := by
  refine adaptor_bind fun _ => ite (fun _ => ?_) fun _ => .pure _
  cases how with
  | initAndOpenFile => exact .initAndOpenWriter i
  | openFile =>
    exact adaptor_bind fun _ => ite
      (fun _ => get_bind fun _ _ => ite (fun _ => .modifyAdaptor _) fun _ => .throw _)
      fun _ => .initAndOpenWriter i

theorem openOrThrow (i offset : Nat) : Ends (openOrThrow a i offset) :=
  bind (adaptor_bind fun _ => ite (fun _ => .pure _) fun _ =>
      (ensureMaxOpenFileLimit 1).bind fun _ => (openEntry i .openFile).bind fun _ =>
        .modifyAdaptor _)
    fun _ => adaptor_bind fun _ => ite (fun _ => .pure _) fun _ => .throw _

theorem findFirst (offset : Nat) : Ends (findFirstDiskWriterEntry a offset) :=
  adaptor_bind fun _ => ite (fun _ => .pure _) fun _ => .throw _

theorem writeWriter (i : Nat) (data : List UInt8) (fileOffset : Nat) :
    Ends (writeWriter a i data fileOffset) :=
  adaptor_bind fun _ => ite (fun _ => .pure _) fun _ =>
    ite (fun _ => .modifyAdaptor _) fun _ => .throw _

theorem writeData (data : List UInt8) (offset : Nat) : Ends (writeData a data offset) := by
  have hfrom : ∀ count i offset data fileOffset,
      Ends (writeFrom a count i offset data fileOffset) := fun count => by
    induction count with
    | zero => exact fun _ _ _ _ => .pure _
    | succ count ih =>
      exact fun i offset data fileOffset => adaptor_bind fun _ => (openOrThrow _ _).bind fun _ =>
        (writeWriter _ _ _).bind fun _ => ite (fun _ => .pure _) fun _ => ih _ _ _ _
  exact (findFirst offset).bind fun _ => adaptor_bind fun _ => hfrom _ _ _ _ _

theorem writeRuns (ws : List (Nat × List UInt8)) : Ends (writeRuns a ws) := by
  induction ws with
  | nil => exact .pure _
  | cons r ws ih => exact (writeData _ _).bind fun _ => ih

theorem readWriter (i length fileOffset : Nat) : Ends (readWriter a i length fileOffset) :=
  adaptor_bind fun _ => ite (fun _ => .throw _) fun _ => ite (fun _ => .pure _) fun hne =>
    (getRandomNumber (List.length_pos_iff.mpr hne)).bind fun _ => .pure _

theorem readFully (i fuel readLength fileOffset : Nat) :
    Ends (readFully a i fuel readLength fileOffset) := by
  induction fuel generalizing readLength fileOffset with
  | zero => exact .pure _
  | succ fuel ih =>
    refine ite (fun _ => .pure _) fun _ => (readWriter _ _ _).bind fun _ => ?_
    exact ite (fun _ => .pure _) fun _ => (ih _ _).bind fun _ => .pure _

theorem readData (length offset : Nat) : Ends (readData a length offset) := by
  have hfrom : ∀ count i offset rem fileOffset,
      Ends (readFrom a count i offset rem fileOffset) := fun count => by
    induction count with
    | zero => exact fun _ _ _ _ => .pure _
    | succ count ih =>
      exact fun i offset rem fileOffset => adaptor_bind fun _ => (openOrThrow _ _).bind fun _ =>
        (readFully _ _ _ _).bind fun _ => ite (fun _ => .pure _) fun _ =>
          (ih _ _ _ _).bind fun _ => .pure _
  exact (findFirst offset).bind fun _ => adaptor_bind fun _ => hfrom _ _ _ _ _

/-- Only the opening of an adaptor asserts something about it. -/
theorem run {c : Call n} (hc : ∀ a, ¬c.IsOpening a) : Ends c.run := by
  cases c with
  | readData a length offset => exact .readData length offset
  | writeData a data offset => exact (writeData data offset).bind fun _ => .pure _
  | writeCache a set => exact (writeRuns _).bind fun _ => .pure _
  | openFile a => exact absurd (.inl rfl) (hc a)
  | initAndOpenFile a => exact absurd (.inr (.inl rfl)) (hc a)
  | openExistingFile a => exact absurd (.inr (.inr rfl)) (hc a)
  | closeFile a => exact closeFile.bind fun _ => .pure _
  | tryCloseFile a k => exact (tryCloseFile k).bind fun _ => .pure _

end Ends

end Ends

section FlatArray

end FlatArray

end FluxCore.Disk
