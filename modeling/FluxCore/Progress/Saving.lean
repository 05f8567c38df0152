import FluxCore.Lib.Run
import FluxCore.Progress.ControlFile

/-!
# Saving and removing the control file

`DefaultBtProgressInfoFile::save()`, which writes only where the digest of the content is not the
one of the last content it set out to write, and `removeFile()`. The files are regular files by
their names. Which file operations fail is an input.
-/

namespace FluxCore.Progress

/-- The regular files with their contents. -/
def Files := String → Option (List UInt8)

namespace Files

def isFile (files : Files) (name : String) : Bool := (files name).isSome

def write (files : Files) (name : String) (content : List UInt8) : Files := fun n =>
  if n = name then some content else files n

def remove (files : Files) (name : String) : Files := fun n =>
  if n = name then none else files n

/-- `rename` replaces a file under the new name. -/
def rename (files : Files) (old new : String) : Files := fun n =>
  if n = new then files old else if n = old then none else files n

end Files

/-- The results of the file operations of a `save`: whether the temporary file can be opened, which
write falls short (if any), whether `close` and `renameTo` go through, and what is in the temporary
file where one of the writes or `close` does not. -/
structure Attempt where
  opens : Bool := true
  fallsShort : Option Nat := none
  closes : Bool := true
  renames : Bool := true
  left : List UInt8 := []
  deriving DecidableEq

/-- The results of the file operations of a `removeFile`. -/
structure Removal where
  migrates : Bool := true
  removes : Bool := true
  removesLegacy : Bool := true
  deriving DecidableEq

inductive Outcome
  | returned
  | threw
  deriving DecidableEq

/-- The members of `DefaultBtProgressInfoFile` that change, and the files. An empty `lastDigest_` is
no digest. -/
structure InfoFile (δ : Type) where
  basePath : String
  filename : String
  lastDigest : Option δ := none
  files : Files

namespace InfoFile

variable {δ : Type} (f : InfoFile δ)

/-- `filename_` of a new object. -/
def new (basePath : String) (files : Files) : InfoFile δ where
  basePath
  filename := basePath ++ ".xfer"
  files

def legacyFilename : String := f.basePath ++ ".aria2"

/-- `save(fp)` of the temporary file, for the writes that `save(IOFile&)` makes. -/
def saveTemp (writes : List (List UInt8)) (a : Attempt) : Outcome × InfoFile δ :=
  let filenameTemp := f.filename ++ "__temp"
  if a.opens then
    if a.fallsShort.any (· < writes.length) || !a.closes then
      (.threw, { f with files := f.files.write filenameTemp a.left })
    else
      let f := { f with files := f.files.write filenameTemp writes.flatten }
      if a.renames then (.returned, { f with files := f.files.rename filenameTemp f.filename })
      else (.threw, f)
  else (.threw, f)

variable {ctx : Context} [DecidableEq δ] (sha1 : List UInt8 → δ)

def save (s : State ctx) (a : Attempt) : Outcome × InfoFile δ :=
  let digest := sha1 s.content
  if some digest = f.lastDigest then (.returned, f)
  else { f with lastDigest := some digest }.saveTemp s.writes a

/-- Whether there was a legacy file. -/
def migrateLegacyFile (migrates : Bool) : Bool × InfoFile δ :=
  if !f.files.isFile f.legacyFilename then (false, f)
  else if migrates then (true, { f with files := f.files.rename f.legacyFilename f.filename })
  else (true, { f with filename := f.legacyFilename })

def «exists» (migrates : Bool) : Bool × InfoFile δ :=
  if f.files.isFile f.filename then (true, f) else f.migrateLegacyFile migrates

def removeFile (r : Removal) : InfoFile δ :=
  let (found, f) := f.exists r.migrates
  let f := if found && r.removes then { f with files := f.files.remove f.filename } else f
  if f.files.isFile f.legacyFilename && r.removesLegacy then
    { f with files := f.files.remove f.legacyFilename }
  else f

end InfoFile

/-- A call, with the state of the download at that moment. -/
inductive Call (ctx : Context)
  | save (s : State ctx) (a : Attempt)
  | removeFile (r : Removal)

variable {δ : Type} [DecidableEq δ] {ctx : Context} (sha1 : List UInt8 → δ)

def InfoFile.step (f : InfoFile δ) : Call ctx → InfoFile δ
  | .save s a => (f.save sha1 s a).2
  | .removeFile r => f.removeFile r

/-- A `save` that returns leaves the content of the moment in the control file, and one that throws
leaves the control file as it was. -/
def Faithful (f : InfoFile δ) : Call ctx → Prop
  | .save s a =>
    ((f.save sha1 s a).1 = .returned →
      (f.save sha1 s a).2.files (f.save sha1 s a).2.filename = some s.content) ∧
    ((f.save sha1 s a).1 = .threw →
      (f.save sha1 s a).2.files (f.save sha1 s a).2.filename = f.files f.filename)
  | .removeFile _ => True

/-! ## What has to be remembered -/

/-- The file operations of a `save` with `n` writes all go through. -/
def Attempt.Succeeds (a : Attempt) (n : Nat) : Prop :=
  a.opens = true ∧ (∀ k ∈ a.fallsShort, n ≤ k) ∧ a.closes = true ∧ a.renames = true

instance (a : Attempt) (n : Nat) : Decidable (a.Succeeds n) := inferInstanceAs (Decidable (_ ∧ _))

/-- The call removes the control file where there is one: by its name, or as the legacy file that it
still is. -/
def InfoFile.unlinks (f : InfoFile δ) (r : Removal) : Bool :=
  r.removes || (f.filename = f.legacyFilename && r.removesLegacy)

/-- The content that was last to be written, and whether it was written and no `removeFile` has
removed it since. -/
structure Past where
  attempted : Option (List UInt8) := none
  intact : Bool := false
  deriving DecidableEq

def Past.next (p : Past) (f : InfoFile δ) : Call ctx → Past
  | .save s a =>
    if p.attempted = some s.content then p else ⟨some s.content, a.Succeeds s.writes.length⟩
  | .removeFile r => { p with intact := p.intact && !f.unlinks r }

/-- No `save` of an unchanged content comes behind a `save` of it that failed, or behind a
`removeFile` that removed the control file. -/
def Careful (f : InfoFile δ) (p : Past) : List (Call ctx) → Prop
  | [] => True
  | c :: cs =>
    (match c with
      | .save s _ => p.attempted = some s.content → p.intact = true
      | .removeFile _ => True) ∧ Careful (f.step sha1 c) (p.next f c) cs

instance Careful.decidable :
    ∀ (f : InfoFile δ) (p : Past) (cs : List (Call ctx)), Decidable (Careful sha1 f p cs)
  | _, _, [] => inferInstanceAs (Decidable True)
  | f, p, c :: cs =>
    have := Careful.decidable (f.step sha1 c) (p.next f c) cs
    match c with
    | .save s _ =>
      inferInstanceAs (Decidable ((p.attempted = some s.content → p.intact = true) ∧ _))
    | .removeFile _ => inferInstanceAs (Decidable (True ∧ _))

/-- The contents that the calls are about. -/
def contents (cs : List (Call ctx)) : List (List UInt8) :=
  cs.filterMap fun c => match c with
    | .save s _ => some s.content
    | .removeFile _ => none

namespace InfoFile

variable {f : InfoFile δ} {s : State ctx} {a : Attempt} {writes : List (List UInt8)}

theorem temp_ne (name : String) : name ++ "__temp" ≠ name := by
  intro h
  have := congrArg String.length h
  simp [String.length_append] at this

omit [DecidableEq δ] in
/-- `saveTemp` goes through where every file operation does; else the control file stays. -/
theorem saveTemp_spec (f : InfoFile δ) (writes : List (List UInt8)) (a : Attempt) :
    (f.saveTemp writes a).2.filename = f.filename ∧
      (f.saveTemp writes a).2.lastDigest = f.lastDigest ∧
      (a.Succeeds writes.length → (f.saveTemp writes a).1 = .returned ∧
        (f.saveTemp writes a).2.files f.filename = some writes.flatten) ∧
      (¬a.Succeeds writes.length → (f.saveTemp writes a).1 = .threw ∧
        (f.saveTemp writes a).2.files f.filename = f.files f.filename) := by
  have hne := (temp_ne f.filename).symm
  obtain ⟨opens, fallsShort, closes, renames, left⟩ := a
  unfold saveTemp Attempt.Succeeds
  cases opens with
  | false => simp
  | true =>
    cases fallsShort with
    | none => cases closes <;> cases renames <;> simp [Files.write, Files.rename, hne]
    | some k =>
      rcases Nat.lt_or_ge k writes.length with hk | hk
      · simp [hk, Files.write, hne]
      · cases closes <;> cases renames <;>
          simp [Nat.not_lt.mpr hk, hk, Files.write, Files.rename, hne]

omit [DecidableEq δ] in
theorem lastDigest_removeFile (f : InfoFile δ) (r : Removal) :
    (f.removeFile r).lastDigest = f.lastDigest := by
  unfold removeFile InfoFile.exists migrateLegacyFile
  simp only [apply_ite Prod.snd, apply_ite InfoFile.lastDigest]
  split_ifs <;> rfl

/-- The remembered digest is that of the content last attempted, and where that content is intact it
is what the control file has. -/
structure Remembers (f : InfoFile δ) (p : Past) : Prop where
  digest : f.lastDigest = p.attempted.map sha1
  intact : p.intact = true → ∃ c, p.attempted = some c ∧ f.files f.filename = some c

variable {sha1 : List UInt8 → δ} {p : Past} {c : Call ctx} {cs : List (Call ctx)}

theorem Remembers.save (h : f.Remembers sha1 p) (s : State ctx) (a : Attempt)
    (hsha1 : ∀ c ∈ p.attempted, sha1 c = sha1 s.content → c = s.content)
    (hcareful : p.attempted = some s.content → p.intact = true) :
    Faithful sha1 f (.save s a) ∧ (f.save sha1 s a).2.Remembers sha1 (p.next f (.save s a)) := by
  by_cases hsame : p.attempted = some s.content
  · have hsave : f.save sha1 s a = (.returned, f) := by
      rw [InfoFile.save, if_pos (by rw [h.digest, hsame]; rfl)]
    obtain ⟨c, hc, hfile⟩ := h.intact (hcareful hsame)
    rw [Faithful, Past.next, hsave, if_pos hsame]
    exact ⟨⟨fun _ => hfile.trans (hc.symm.trans hsame), nofun⟩, h⟩
  · have hdigest : some (sha1 s.content) ≠ f.lastDigest := by
      intro heq
      rw [h.digest] at heq
      obtain ⟨c, hc, heq⟩ := Option.map_eq_some_iff.mp heq.symm
      exact hsame (hc.trans (congrArg some (hsha1 c hc heq)))
    have hsave : f.save sha1 s a =
        { f with lastDigest := some (sha1 s.content) }.saveTemp s.writes a := by
      rw [InfoFile.save, if_neg hdigest]
    obtain ⟨hname, hlast, hyes, hno⟩ :=
      saveTemp_spec { f with lastDigest := some (sha1 s.content) } s.writes a
    rw [Faithful, Past.next, hsave, if_neg hsame, hname]
    by_cases hsucc : a.Succeeds s.writes.length
    · obtain ⟨hout, hfile⟩ := hyes hsucc
      exact ⟨⟨fun _ => hfile, fun hthrew => (nomatch hout.symm.trans hthrew)⟩, hlast,
        fun _ => ⟨_, rfl, (congrArg _ hname).trans hfile⟩⟩
    · obtain ⟨hout, hfile⟩ := hno hsucc
      exact ⟨⟨fun hret => (nomatch hout.symm.trans hret), fun _ => hfile⟩, hlast,
        fun hintact => absurd (of_decide_eq_true hintact) hsucc⟩

omit [DecidableEq δ] in
theorem Remembers.removeFile (h : f.Remembers sha1 p) (r : Removal) :
    (f.removeFile r).Remembers sha1 { p with intact := p.intact && !f.unlinks r } := by
  refine ⟨(f.lastDigest_removeFile r).trans h.digest, fun hintact => ?_⟩
  simp only [unlinks, Bool.and_eq_true, Bool.not_eq_true', Bool.or_eq_false_iff,
    Bool.and_eq_false_iff, decide_eq_false_iff_not] at hintact
  obtain ⟨hp, hremoves, hlegacy⟩ := hintact
  obtain ⟨c, hc, hfile⟩ := h.intact hp
  have hfound : f.exists r.migrates = (true, f) := by
    rw [InfoFile.exists, Files.isFile, hfile, Option.isSome_some, if_pos rfl]
  -- only the legacy file may go, under another name
  have hkept : (f.removeFile r).filename = f.filename ∧
      (f.removeFile r).files f.filename = some c := by
    rw [InfoFile.removeFile, hfound, hremoves]
    simp only [Bool.and_false, Bool.false_eq_true, if_false]
    split
    next h =>
      rw [Bool.and_eq_true] at h
      have hne : f.filename ≠ f.legacyFilename :=
        hlegacy.resolve_right fun hno => Bool.noConfusion (hno.symm.trans h.2)
      exact ⟨rfl, (if_neg hne).trans hfile⟩
    next => exact ⟨rfl, hfile⟩
  exact ⟨c, hc, by rw [hkept.1]; exact hkept.2⟩

theorem Remembers.faithful (h : f.Remembers sha1 p)
    (hsha1 : ∀ c ∈ p.attempted.toList ++ contents cs, ∀ c' ∈ contents cs,
      sha1 c = sha1 c' → c = c')
    (hcs : Careful sha1 f p cs) : Along (step sha1) (Faithful sha1) f cs := by
  induction cs generalizing f p with
  | nil => trivial
  | cons c cs ih =>
    cases c with
    | save s a =>
      have hmem : s.content ∈ contents (.save s a :: cs) := List.mem_cons_self
      have hsub : ∀ c ∈ contents cs, c ∈ contents (.save s a :: cs) :=
        fun _ => List.mem_cons_of_mem _
      obtain ⟨hfaithful, hnext⟩ := h.save s a
        (fun c hc => hsha1 c (List.mem_append_left _ (by simpa using hc)) _ hmem) hcs.1
      refine ⟨hfaithful, ih hnext (fun c hc c' hc' => hsha1 c ?_ c' (hsub c' hc')) hcs.2⟩
      rcases List.mem_append.mp hc with hc | hc
      · rw [Past.next] at hc
        split_ifs at hc with hsame
        · exact List.mem_append_left _ hc
        · exact List.mem_append_right _ (by
            rw [Option.toList_some, List.mem_singleton] at hc
            exact hc ▸ hmem)
      · exact List.mem_append_right _ (hsub c hc)
    | removeFile r => exact ⟨trivial, ih (h.removeFile r) hsha1 hcs.2⟩

end InfoFile

end FluxCore.Progress
