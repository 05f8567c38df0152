import FluxCore.Ed2k.Execute
import FluxCore.Lib.Run
import Mathlib.Logic.Relation

/-!
# The moves of the state machine

What one pass of `execute` can do, said once: a pass is a sequence of `Move`s (`execute_moves`), so
that whatever every move keeps, every pass keeps (`of_execute`).
-/

namespace FluxCore.Ed2k.Execution

open Relation (ReflTransGen)

/-- A peer is connected. -/
def Engaged (state : Ed2kState) : Prop :=
  state = .peerHandshake ∨ state = .peerFileInfo ∨ state = .peerSourceExchange ∨
    state = .peerStartUpload ∨ state = .peerDownload

/-- The current source is the one that the command deals with. -/
def PeerPhase (state : Ed2kState) : Prop :=
  state = .peerConnect ∨ state = .peerWaitConnect ∨ Engaged state

/-- The server answers. -/
def ServerExchange (state : Ed2kState) : Prop :=
  state = .serverLogin ∨ state = .serverGetSources ∨ state = .serverWaitSources

/-- The changes of state that leave everything else alone. -/
inductive Follows : Ed2kState → Ed2kState → Prop
  | login : Follows .serverConnect .serverLogin
  | withoutServer : Follows .serverConnect .peerConnect
  | getSources : Follows .serverLogin .serverGetSources
  | waitSources : Follows .serverGetSources .serverWaitSources
  | handshake : Follows .peerWaitConnect .peerHandshake
  | fileInfo : Follows .peerHandshake .peerFileInfo
  | sourceExchange : Follows .peerFileInfo .peerSourceExchange
  | skipExchange : Follows .peerFileInfo .peerStartUpload
  | startUpload : Follows .peerSourceExchange .peerStartUpload
  | download : Follows .peerStartUpload .peerDownload

/-- Changes that mark a connected source. -/
structure Marks (f : PeerSource → PeerSource) : Prop where
  addr : ∀ p, (f p).addr = p.addr
  port : ∀ p, (f p).port = p.port
  active : ∀ p, (f p).state = .connected ∨ (f p).state = .downloading ∨ (f p).state = .queued

/-- One move of a pass that begins in the state `st`. -/
inductive Move (cfg : Config) (t : Tick) (st : Ed2kState) (s : Execution) : Execution → Prop
  | learn (addr : String) (port : Nat) : Move cfg t st s
      { s with
        toDownloadCommand := s.toDownloadCommand.addSource addr port t.turn.wallclock t.now }
  | status (h : s.state = .peerFileInfo) (bitmap : List Bool) : Move cfg t st s
      { s with
        toDownloadCommand := s.toDownloadCommand.updatePartAvailability s.currentSourceIndex bitmap }
  | mark (h : Engaged s.state) (f : PeerSource → PeerSource) (hf : Marks f) :
      Move cfg t st s (s.setCurrent f)
  | phase {state : Ed2kState} (h : Follows s.state state) : Move cfg t st s { s with state }
  | named (b : Bool) : Move cfg t st s { s with setReqFileIdSent := b }
  | leave (h : PeerPhase s.state) : Move cfg t st s (s.tryNextPeer t)
  | drop (h : Engaged s.state) : Move cfg t st s (s.dropPeer t)
  | nextServer (h : ServerExchange s.state) : Move cfg t st s s.nextServer
  | skipServer (h : s.state = .serverConnect) : Move cfg t st s
      { s.resetPeerState with currentServerIndex := s.currentServerIndex + 1 }
  | serverList (h : s.state = .serverConnect) : Move cfg t st s (s.buildServerList cfg)
  | round (h : s.state = .serverConnect) (hi : s.serverList.length ≤ s.currentServerIndex)
      (hr : s.serverRound + 1 ≤ MAX_SERVER_ROUNDS) : Move cfg t st s
      { s with currentServerIndex := 0, serverRound := s.serverRound + 1 }
  | exhausted (h : s.state = .serverConnect) (hi : s.serverList.length ≤ s.currentServerIndex)
      (hr : MAX_SERVER_ROUNDS < s.serverRound + 1) : Move cfg t st s
      { s with currentServerIndex := 0, serverRound := s.serverRound + 1, state := .failure }
  | tryServer (h : s.state = .serverConnect) (hi : s.currentServerIndex < s.serverList.length) :
      Move cfg t st s (s.initiateServer t)
  | waited (h0 : st = .serverWaitSources) (h : s.state = .serverWaitSources) : Move cfg t st s
      { s.resetPeerState with toDownloadCommand := s.toDownloadCommand.reconnectServer.2 }
  | passOver (h : s.state = .peerConnect) (src : PeerSource)
      (hsrc : s.sources[s.currentSourceIndex]? = some src)
      (hst : src.state = .expired ∨ src.state = .failed) : Move cfg t st s
      { s with currentSourceIndex := s.currentSourceIndex + 1 }
  | connect (h : s.state = .peerConnect) (src : PeerSource)
      (hsrc : s.sources[s.currentSourceIndex]? = some src) (hst : src.state ≠ .expired) :
      Move cfg t st s
        { (s.setCurrent fun p => { p with state := .connecting, lastActive := t.now }).resetPeerState
          with attempts := s.attempts ++ [Attempt.peer src.addr src.port] }
  | connecting (h : s.state = .peerConnect) (src : PeerSource)
      (hsrc : s.sources[s.currentSourceIndex]? = some src) (hst : src.state = .connecting) :
      Move cfg t st s { s with socketOpen := true, state := .peerWaitConnect }
  | found (h0 : st = .serverGetSources) (h : s.state = .serverGetSources) (hne : s.sources ≠ []) :
      Move cfg t st s
      { s with socketOpen := false, currentSourceIndex := 0, state := .peerConnect }
  | refresh (h : s.state = .peerDownload) : Move cfg t st s
      { s.resetPeerState with state := .serverConnect }
  | fill (h : s.state = .peerDownload) : Move cfg t st s
      { s with
        toDownloadCommand :=
          (DownloadCommand.fillBlockPipeline t.turn MAX_INFLIGHT_BLOCKS s.toDownloadCommand).2 }
  | part (h : s.state = .peerDownload) (payload : Bytes) (is64 : Bool) :
      Move cfg t st s (s.sendingPart t payload is64)
  | complete (h : s.state = .peerDownload) (hc : s.downloadComplete) : Move cfg t st s
      { s with inflightBlocks := [], socketOpen := false, state := .verifyHash }
  | verified (h : s.state = .verifyHash) : Move cfg t st s
      { s with pieceStorage := s.pieceStorage.markAllPiecesDone, state := .finished }
  | abort (message : String) : Move cfg t st s (s.abort message)
  | done : Move cfg t st s { s with returned := true }

variable {cfg : Config} {t : Tick} {st : Ed2kState} {s s' : Execution}

/-- The moves of one pass. -/
abbrev Moves (cfg : Config) (t : Tick) (st : Ed2kState) : Execution → Execution → Prop :=
  ReflTransGen (Move cfg t st)

theorem Move.one (h : Move cfg t st s s') : Moves cfg t st s s' := .single h

/-! ## Learning of sources -/

/-- Sources are all that is learnt. -/
theorem addSource_form (c : DownloadCommand) (addr : String) (port wallclock now : Nat) :
    ∃ sources, c.addSource addr port wallclock now = { c with sources } := by
  unfold DownloadCommand.addSource
  split <;> exact ⟨_, rfl⟩

theorem addSources_form (srcs : List (String × Nat)) (c : DownloadCommand) (wallclock now : Nat) :
    ∃ sources, srcs.foldl (fun c src => c.addSource src.1 src.2 wallclock now) c =
      { c with sources } := by
  induction srcs generalizing c with
  | nil => exact ⟨_, rfl⟩
  | cons src srcs ih =>
    obtain ⟨_, hone⟩ := addSource_form c src.1 src.2 wallclock now
    obtain ⟨sources, hall⟩ := ih (c.addSource src.1 src.2 wallclock now)
    rw [hone] at hall
    exact ⟨sources, by rw [List.foldl_cons, hone]; exact hall⟩

/-- Any number of sources is learnt of. -/
theorem learn_all (cfg : Config) (t : Tick) (st : Ed2kState) (srcs : List (String × Nat))
    (s : Execution) :
    let c := srcs.foldl (fun c src => c.addSource src.1 src.2 t.turn.wallclock t.now)
      s.toDownloadCommand
    Moves cfg t st s { s with toDownloadCommand := c } ∧ c.state = s.state := by
  refine ⟨?_, ?_⟩
  · induction srcs generalizing s with
    | nil => exact .refl
    | cons src srcs ih =>
      exact .head (.learn src.1 src.2) (ih
        { s with
          toDownloadCommand := s.toDownloadCommand.addSource src.1 src.2 t.turn.wallclock t.now })
  · obtain ⟨_, hform⟩ := addSources_form srcs s.toDownloadCommand t.turn.wallclock t.now
    rw [hform]

theorem emuleMessage_moves (cfg : Config) (t : Tick) (st : Ed2kState) (s : Execution) (f : Frame) :
    Moves cfg t st s (s.emuleMessage t f) ∧ (s.emuleMessage t f).state = s.state := by
  unfold emuleMessage
  split
  · exact learn_all cfg t st (answeredSources f.payload) s
  · exact ⟨.refl, rfl⟩

theorem addKadSources_moves (cfg : Config) (t : Tick) (st : Ed2kState) (s : Execution) :
    Moves cfg t st s (s.addKadSources t) ∧ (s.addKadSources t).state = s.state :=
  learn_all cfg t st t.kadSources s

/-! ## The server phase -/

theorem pickServer_moves (h : s.state = .serverConnect) : Moves cfg t st s (s.pickServer cfg t) := by
  have hlist : (s.buildServerList cfg).state = .serverConnect := by
    unfold buildServerList
    split <;> exact h
  have hne : (s.buildServerList cfg).serverList ≠ [] := by
    unfold buildServerList
    split
    · dsimp only
      split
      exacts [by simp, cfg.defaultServers_ne]
    next hempty => simpa using hempty
  refine .head (.serverList h) ?_
  unfold pickServer
  generalize s.buildServerList cfg = s at hlist hne
  dsimp only
  split
  next hi =>
    split
    next hr => exact Move.one (.exhausted hlist hi hr)
    next hr =>
      refine .head (.round hlist hi (not_lt.mp hr)) (Move.one (.tryServer hlist ?_))
      exact List.length_pos_of_ne_nil hne
  next hi => exact Move.one (.tryServer hlist (not_le.mp hi))

theorem serverConnect_moves (h : s.state = .serverConnect) :
    Moves cfg t st s (s.serverConnect cfg t) := by
  have hskip : Moves cfg t st s
      ({ s.resetPeerState with currentServerIndex := s.currentServerIndex + 1 }.pickServer cfg t) :=
    .head (.skipServer h) (pickServer_moves h)
  unfold serverConnect
  split
  · split
    · split
      exacts [hskip, .refl]
    · exact Move.one (.phase (h ▸ .login))
    · exact hskip
  · exact pickServer_moves h

theorem serverLogin_moves (h : s.state = .serverLogin) : Moves cfg t st s (s.serverLogin t) := by
  have hnext : Moves cfg t st s s.nextServer := Move.one (.nextServer (.inl h))
  unfold serverLogin
  split
  · exact .refl
  · exact hnext
  · split
    · exact .refl
    split
    · exact Move.one (.phase (h ▸ .getSources))
    · exact hnext

theorem serverGetSources_moves (h : s.state = .serverGetSources) :
    Moves cfg t .serverGetSources s (s.serverGetSources t) := by
  unfold serverGetSources
  split
  · exact Move.one (.abort _)
  split
  · exact .refl
  · exact Move.one (.nextServer (.inr (.inl h)))
  next f _ =>
    split
    · exact .refl
    split
    · exact Move.one (.phase (h ▸ .waitSources))
    split
    · exact .refl
    · obtain ⟨hlearn, hstate⟩ := learn_all cfg t .serverGetSources (foundSources f.payload) s
      dsimp only at hlearn hstate ⊢
      rw [h] at hstate
      split
      · exact hlearn.tail (.phase (by rw [hstate]; exact .waitSources))
      next hne => exact hlearn.tail (.found rfl hstate (by simpa using hne))

theorem serverWaitSources_moves (h : s.state = .serverWaitSources) :
    Moves cfg t .serverWaitSources s (s.serverWaitSources t) := by
  unfold serverWaitSources
  split
  exacts [Move.one (.waited rfl h), .refl]

/-! ## The peer phase -/

theorem setCurrent_getElem? (f : PeerSource → PeerSource) :
    (s.setCurrent f).sources[s.currentSourceIndex]? = s.sources[s.currentSourceIndex]?.map f := by
  simp [setCurrent]

theorem peerConnect_moves (h : s.state = .peerConnect) : Moves cfg t st s (s.peerConnect t) := by
  have hphase : PeerPhase s.state := .inl h
  unfold peerConnect
  split
  · exact Move.one (.leave hphase)
  next src hsrc =>
    split
    next hskip =>
      refine Move.one (.passOver h src hsrc ?_)
      simp only [Bool.or_eq_true, decide_eq_true_eq, Bool.and_eq_true] at hskip
      exact hskip.imp_right And.left
    next hskip =>
      simp only [Bool.or_eq_true, decide_eq_true_eq, Bool.and_eq_true, not_or] at hskip
      refine .head (.connect h src hsrc hskip.1) ?_
      dsimp only
      split
      · refine Move.one (.connecting h { src with state := .connecting, lastActive := t.now } ?_ rfl)
        exact (setCurrent_getElem? _).trans (congrArg (Option.map _) hsrc)
      · exact Move.one (.leave (.inl h))

theorem peerWaitConnect_moves (h : s.state = .peerWaitConnect) :
    Moves cfg t st s (s.peerWaitConnect t) := by
  have hleave : Moves cfg t st s (s.tryNextPeer t) := Move.one (.leave (.inr (.inl h)))
  unfold peerWaitConnect
  split
  · split
    exacts [hleave, .refl]
  · exact hleave
  · exact Move.one (.phase (h ▸ .handshake))

theorem marks_connected (now : Nat) :
    Marks fun p => { p with state := .connected, lastActive := now } :=
  ⟨fun _ => rfl, fun _ => rfl, fun _ => .inl rfl⟩

theorem marks_downloading (now : Nat) :
    Marks fun p => { p with state := .downloading, lastActive := now } :=
  ⟨fun _ => rfl, fun _ => rfl, fun _ => .inr (.inl rfl)⟩

theorem marks_queued : Marks fun p => { p with state := .queued } :=
  ⟨fun _ => rfl, fun _ => rfl, fun _ => .inr (.inr rfl)⟩

theorem peerHandshake_moves (h : s.state = .peerHandshake) :
    Moves cfg t st s (s.peerHandshake t) := by
  have hleave : Moves cfg t st s (s.tryNextPeer t) := Move.one (.leave (.inr (.inr (.inl h))))
  unfold peerHandshake
  split
  · exact .refl
  · exact hleave
  · split
    · exact .refl
    split
    · exact hleave
    · have hmark : Moves cfg t st s
          (s.setCurrent fun p => { p with state := .connected, lastActive := t.now }) :=
        Move.one (.mark (.inl h) _ (marks_connected t.now))
      exact (hmark.tail (.phase (h ▸ .fileInfo))).tail (.named false)

theorem fileInfoDone_moves (h : s.state = .peerFileInfo) : Moves cfg t st s (s.fileInfoDone cfg) := by
  unfold fileInfoDone
  split
  exacts [Move.one (.phase (h ▸ .sourceExchange)), Move.one (.phase (h ▸ .skipExchange))]

theorem fileStatus_moves (cfg : Config) (t : Tick) (st : Ed2kState) (h : s.state = .peerFileInfo) (payload : Bytes) :
    Moves cfg t st s (s.fileStatus payload) ∧ (s.fileStatus payload).state = .peerFileInfo := by
  unfold fileStatus
  split
  next bitmap _ =>
    split
    · refine ⟨Move.one (.status h bitmap), ?_⟩
      dsimp only [DownloadCommand.updatePartAvailability]
      split <;> exact h
    · exact ⟨.refl, h⟩
  · exact ⟨.refl, h⟩

theorem peerFileInfo_moves (h : s.state = .peerFileInfo) :
    Moves cfg t st s (s.peerFileInfo cfg t) := by
  have hengaged : Engaged s.state := .inr (.inl h)
  have hleave : Moves cfg t st s (s.tryNextPeer t) := Move.one (.leave (.inr (.inr hengaged)))
  unfold peerFileInfo
  split
  · exact Move.one (.abort _)
  split
  · split
    · exact .refl
    split
    exacts [fileInfoDone_moves h, hleave]
  · exact hleave
  next f _ =>
    split
    · exact (emuleMessage_moves cfg t st s f).1
    split
    · exact Move.one (.drop hengaged)
    split
    · exact .refl
    split
    · split
      exacts [Move.one (.named true), .refl]
    split
    · obtain ⟨h1, h2⟩ := fileStatus_moves cfg t st h f.payload
      exact h1.trans (fileInfoDone_moves h2)
    · exact fileInfoDone_moves h

theorem peerSourceExchange_moves (h : s.state = .peerSourceExchange) :
    Moves cfg t st s (s.peerSourceExchange t) := by
  have hnext : Moves cfg t st s { s with state := .peerStartUpload } :=
    Move.one (.phase (h ▸ .startUpload))
  unfold peerSourceExchange
  split
  · split
    exacts [hnext, .refl]
  · exact hnext
  next f _ =>
    split
    · obtain ⟨h1, h2⟩ := emuleMessage_moves cfg t st s f
      exact h1.tail (.phase (by rw [h2, h]; exact .startUpload))
    split
    · exact Move.one (.drop (.inr (.inr (.inl h))))
    · exact hnext

theorem peerStartUpload_moves (h : s.state = .peerStartUpload) :
    Moves cfg t st s (s.peerStartUpload t) := by
  have hengaged : Engaged s.state := .inr (.inr (.inr (.inl h)))
  have hleave : Moves cfg t st s (s.tryNextPeer t) := Move.one (.leave (.inr (.inr hengaged)))
  have hqueued : Moves cfg t st s (s.setCurrent fun p => { p with state := .queued }) :=
    Move.one (.mark hengaged _ marks_queued)
  unfold peerStartUpload
  split
  · exact Move.one (.abort _)
  split
  · split
    exacts [hleave, .refl]
  · exact hleave
  next f _ =>
    split
    · split
      exacts [hqueued, (emuleMessage_moves cfg t st s f).1]
    split
    · have hmark : Moves cfg t st s
          (s.setCurrent fun p => { p with state := .downloading, lastActive := t.now }) :=
        Move.one (.mark hengaged _ (marks_downloading t.now))
      exact hmark.tail (.phase (h ▸ .download))
    split
    · exact hqueued
    split
    · exact Move.one (.drop hengaged)
    split
    exacts [hleave, .refl]

theorem sendingPart_command (s : Execution) (t : Tick) (payload : Bytes) (is64 : Bool) :
    (s.sendingPart t payload is64).toDownloadCommand =
      (s.handleSendingPart payload is64 t.writeOk t.turn.wallclock t.now).2 := by
  unfold sendingPart
  split
  next heq => rw [heq]
  next heq => rw [heq]

theorem sendingPart_attempts (s : Execution) (t : Tick) (payload : Bytes) (is64 : Bool) :
    (s.sendingPart t payload is64).attempts = s.attempts := by
  unfold sendingPart
  split <;> rfl

theorem receivePart_moves (h : s.state = .peerDownload) : Moves cfg t st s (s.receivePart t) := by
  have hengaged : Engaged s.state := .inr (.inr (.inr (.inr h)))
  have hleave : Moves cfg t st s (s.tryNextPeer t) := Move.one (.leave (.inr (.inr hengaged)))
  unfold receivePart
  split
  · split
    exacts [hleave, .refl]
  · exact hleave
  next f _ =>
    split
    · exact (emuleMessage_moves cfg t st s f).1
    split
    · exact Move.one (.part h _ _)
    split
    · exact Move.one (.part h _ _)
    split
    · exact .refl
    split
    · exact Move.one (.drop hengaged)
    split
    exacts [hleave, .refl]

/-! ## What leaving a peer changes -/

/-- Where a command goes that leaves its peer: to another source, or to a server unless the servers
are exhausted. -/
inductive Goes (c : DownloadCommand) : Ed2kState → Nat → Nat → Nat → Prop
  | peer {i : Nat} (hi : i < c.sources.length) :
      Goes c .peerConnect i c.currentServerIndex c.serverRound
  | server (h : c.currentServerIndex + 1 < c.serverList.length) :
      Goes c .serverConnect 0 (c.currentServerIndex + 1) c.serverRound
  | round (h : c.serverList.length ≤ c.currentServerIndex + 1)
      (hr : c.serverRound + 1 ≤ MAX_SERVER_ROUNDS) :
      Goes c .serverConnect 0 0 (c.serverRound + 1)
  | exhausted (h : c.serverList.length ≤ c.currentServerIndex + 1)
      (hr : MAX_SERVER_ROUNDS < c.serverRound + 1) : Goes c .failure 0 0 (c.serverRound + 1)

theorem leavePeer_keeps (c : DownloadCommand) (wallclock now : Nat) :
    ∃ sources failedPeers, c.leavePeer wallclock now = { c with sources, failedPeers } ∧
      sources.length = c.sources.length := by
  unfold DownloadCommand.leavePeer
  split
  · split
    · refine ⟨_, _, rfl, ?_⟩
      split <;> simp
    · exact ⟨_, _, rfl, rfl⟩
  · exact ⟨_, _, rfl, rfl⟩

theorem reconnectServer_server {c : DownloadCommand}
    (h : c.currentServerIndex + 1 < c.serverList.length) :
    c.reconnectServer = (true, { c.resetPeerState with
      currentServerIndex := c.currentServerIndex + 1, state := .serverConnect }) := by
  unfold DownloadCommand.reconnectServer
  dsimp only [DownloadCommand.resetPeerState]
  rw [if_neg (not_le.mpr h)]

theorem reconnectServer_round {c : DownloadCommand}
    (h : c.serverList.length ≤ c.currentServerIndex + 1)
    (hr : c.serverRound + 1 ≤ MAX_SERVER_ROUNDS) :
    c.reconnectServer = (true, { c.resetPeerState with
      currentServerIndex := 0, serverRound := c.serverRound + 1, state := .serverConnect }) := by
  unfold DownloadCommand.reconnectServer
  dsimp only [DownloadCommand.resetPeerState]
  rw [if_pos h, if_neg (not_lt.mpr hr)]

theorem reconnectServer_exhausted {c : DownloadCommand}
    (h : c.serverList.length ≤ c.currentServerIndex + 1)
    (hr : MAX_SERVER_ROUNDS < c.serverRound + 1) :
    c.reconnectServer = (false, { c.resetPeerState with
      currentServerIndex := 0, serverRound := c.serverRound + 1 }) := by
  unfold DownloadCommand.reconnectServer
  dsimp only [DownloadCommand.resetPeerState]
  rw [if_pos h, if_pos hr]

/-- A server is gone on to, or the state is left as it is. -/
theorem reconnectServer_form (c : DownloadCommand) :
    ∃ state currentServerIndex serverRound, c.reconnectServer.2 =
      { c.resetPeerState with state, currentServerIndex, serverRound } ∧
        (state = .serverConnect ∨ state = c.state) := by
  by_cases hk : c.serverList.length ≤ c.currentServerIndex + 1
  · by_cases hr : MAX_SERVER_ROUNDS < c.serverRound + 1
    · rw [reconnectServer_exhausted hk hr]
      exact ⟨_, _, _, rfl, .inr rfl⟩
    · rw [reconnectServer_round hk (not_lt.mp hr)]
      exact ⟨_, _, _, rfl, .inl rfl⟩
  · rw [reconnectServer_server (not_le.mp hk)]
    exact ⟨_, _, _, rfl, .inl rfl⟩

/-- `tryNextPeer` marks the peer, resets the peer state and goes on. -/
theorem tryNextPeer_spec (c : DownloadCommand) (wallclock now : Nat) :
    ∃ state currentSourceIndex currentServerIndex serverRound,
      Goes c state currentSourceIndex currentServerIndex serverRound ∧
        c.tryNextPeer wallclock now =
          { (c.leavePeer wallclock now).resetPeerState with
            state, currentSourceIndex, currentServerIndex, serverRound } := by
  obtain ⟨sources, failedPeers, hleave, hlen⟩ := leavePeer_keeps c wallclock now
  unfold DownloadCommand.tryNextPeer
  rw [hleave]
  dsimp only [DownloadCommand.resetPeerState]
  split
  · by_cases hk : c.serverList.length ≤ c.currentServerIndex + 1
    · by_cases hr : MAX_SERVER_ROUNDS < c.serverRound + 1
      · rw [reconnectServer_exhausted]
        exacts [⟨_, _, _, _, .exhausted hk hr, rfl⟩, hk, hr]
      · rw [reconnectServer_round]
        exacts [⟨_, _, _, _, .round hk (not_lt.mp hr), rfl⟩, hk, not_lt.mp hr]
    · rw [reconnectServer_server]
      exacts [⟨_, _, _, _, .server (not_le.mp hk), rfl⟩, not_le.mp hk]
  next hi => exact ⟨_, _, _, _, .peer (hlen ▸ not_le.mp hi), rfl⟩

/-! ## What filling the pipeline changes -/

/-- What `requestPart` leaves of a part. -/
def partKey (p : PartInfo) : Int × Int × Bool × List Nat :=
  (p.offset, p.length, p.completed, p.sources)

/-- Filling the pipeline is about blocks only. -/
def Asks (c c' : DownloadCommand) : Prop :=
  ∃ parts downloadOffset inflightBlocks queued aborted,
    c' = { c with parts, downloadOffset, inflightBlocks, queued, aborted } ∧
      parts.map partKey = c.parts.map partKey

theorem Asks.refl (c : DownloadCommand) : Asks c c := ⟨_, _, _, _, _, rfl, rfl⟩

theorem Asks.trans {c c' c'' : DownloadCommand} (h : Asks c c') (h' : Asks c' c'') :
    Asks c c'' := by
  obtain ⟨_, _, _, _, _, rfl, h1⟩ := h
  obtain ⟨_, _, _, _, _, rfl, h2⟩ := h'
  exact ⟨_, _, _, _, _, rfl, h2.trans h1⟩

theorem asks_requestPart (c : DownloadCommand) (i now : Nat) : Asks c (c.requestPart i now) := by
  refine ⟨_, _, _, _, _, rfl, List.ext_getElem (by simp) fun j h1 h2 => ?_⟩
  simp only [List.getElem_map, List.getElem_modify]
  split <;> rfl

theorem asks_pickNextBlock (c : DownloadCommand) (wallclock now : Nat) :
    Asks c (c.pickNextBlock wallclock now).2 := by
  have htake : ∀ (c : DownloadCommand) lo limit, Asks c (c.takeBlock lo limit).2 := by
    intro c lo limit
    unfold DownloadCommand.takeBlock
    dsimp only
    split
    exacts [.refl c, ⟨_, _, _, _, _, rfl, rfl⟩]
  unfold DownloadCommand.pickNextBlock
  split
  · exact .refl c
  split
  · exact htake ..
  split
  · exact .refl c
  split
  · exact .refl c
  · exact (asks_requestPart ..).trans (htake ..)

theorem asks_gatherBatch (turn : DownloadCommand.Turn) (fuel : Nat) (c : DownloadCommand)
    (batch : List BlockRequest) : Asks c (DownloadCommand.gatherBatch turn fuel c batch).2 := by
  induction fuel generalizing c batch with
  | zero => exact .refl c
  | succ fuel ih =>
    unfold DownloadCommand.gatherBatch
    split
    · have hpick := asks_pickNextBlock c turn.wallclock
        (turn.now (c.inflightBlocks.length + batch.length))
      split
      next heq => exact (congrArg Prod.snd heq) ▸ hpick
      next heq => exact ((congrArg Prod.snd heq) ▸ hpick).trans (ih ..)
    · exact .refl c

theorem asks_fill (turn : DownloadCommand.Turn) (fuel : Nat) (c : DownloadCommand) :
    Asks c (DownloadCommand.fillBlockPipeline turn fuel c).2 := by
  induction fuel generalizing c with
  | zero => exact .refl c
  | succ fuel ih =>
    have hsend : ∀ (c : DownloadCommand) batch, Asks c (c.sendBatch batch) :=
      fun c batch => ⟨_, _, _, _, _, rfl, rfl⟩
    unfold DownloadCommand.fillBlockPipeline
    split
    · have hgather := asks_gatherBatch turn BLOCKS_PER_MESSAGE c []
      split
      next heq => exact (congrArg Prod.snd heq) ▸ hgather
      next heq =>
        have hgather' := (congrArg Prod.snd heq) ▸ hgather
        split
        · exact hgather'.trans ⟨_, _, _, _, _, rfl, rfl⟩
        split
        · exact (hgather'.trans (hsend ..)).trans (ih _)
        · exact hgather'.trans (hsend ..)
    · exact .refl c

theorem transferTurn_moves (h : s.state = .peerDownload) : Moves cfg t st s (s.transferTurn t) := by
  unfold transferTurn
  split
  next hc => exact Move.one (.complete h hc)
  · have hasks := asks_fill t.turn MAX_INFLIGHT_BLOCKS s.toDownloadCommand
    have hfill : Moves cfg t st s _ := Move.one (.fill h)
    generalize DownloadCommand.fillBlockPipeline t.turn MAX_INFLIGHT_BLOCKS s.toDownloadCommand = m
      at hasks hfill
    obtain ⟨ok, c⟩ := m
    have hstate : c.state = .peerDownload := by
      obtain ⟨_, _, _, _, _, hc, -⟩ := hasks
      exact (congrArg DownloadCommand.state hc).trans h
    have hleave : Moves cfg t st { s with toDownloadCommand := c }
        ({ s with toDownloadCommand := c }.tryNextPeer t) :=
      Move.one (.leave (.inr (.inr (.inr (.inr (.inr (.inr hstate)))))))
    cases ok with
    | false =>
      dsimp only
      split
      · exact hfill
      split
      exacts [hfill.trans hleave, hfill]
    | true =>
      dsimp only
      split
      exacts [hfill.trans hleave, hfill.trans (receivePart_moves hstate)]

theorem peerDownload_moves (h : s.state = .peerDownload) :
    Moves cfg t st s (s.peerDownload cfg t) := by
  obtain ⟨hlearn, hstate⟩ := addKadSources_moves cfg t st s
  rw [h] at hstate
  unfold peerDownload
  generalize s.addKadSources t = s' at hlearn hstate
  unfold checkServerSourceRefresh
  dsimp only
  split
  · rw [if_pos (by simp)]
    exact hlearn.tail (.refresh hstate)
  · rw [if_neg (by simpa using hstate)]
    exact hlearn.trans (transferTurn_moves hstate)

/-! ## A pass -/

theorem verifyHash_moves (h : s.state = .verifyHash) : Moves cfg t st s (s.verifyHash t) := by
  unfold verifyHash
  split
  exacts [.refl, Move.one (.verified h), Move.one (.abort _)]

theorem connectPhase_moves (h : s.state = .serverConnect) :
    Moves cfg t st s (s.connectPhase cfg t) := by
  unfold connectPhase
  split
  · split
    exacts [(addKadSources_moves cfg t st s).1, Move.one (.phase (h ▸ .withoutServer))]
  · exact serverConnect_moves h

theorem switch_moves (cfg : Config) (t : Tick) (s : Execution) :
    Moves cfg t s.state s (s.switch cfg t) := by
  unfold switch
  split
  next h => exact connectPhase_moves h
  next h => exact serverLogin_moves h
  next h => exact h ▸ serverGetSources_moves h
  next h => exact h ▸ serverWaitSources_moves h
  next h => exact peerConnect_moves h
  next h => exact peerWaitConnect_moves h
  next h => exact peerHandshake_moves h
  next h => exact peerFileInfo_moves h
  next h => exact peerSourceExchange_moves h
  next h => exact peerStartUpload_moves h
  next h => exact peerDownload_moves h
  next h => exact verifyHash_moves h
  · exact Move.one .done
  · exact Move.one (.abort _)

theorem socketDead_moves (h : exchanges s.state) : Moves cfg t st s (s.socketDead t) := by
  unfold socketDead
  split
  next hserver =>
    refine Move.one (.nextServer ?_)
    simpa only [ServerExchange, Bool.or_eq_true, decide_eq_true_eq, or_assoc] using hserver
  next hserver =>
    refine Move.one (.leave ?_)
    unfold exchanges at h
    unfold PeerPhase Engaged
    cases hs : s.state <;> simp_all

theorem execute_moves (cfg : Config) (t : Tick) (s : Execution) :
    Moves cfg t s.state s (s.execute cfg t) := by
  unfold execute
  split
  · exact .refl
  split
  · exact Move.one .done
  split
  next h => exact socketDead_moves (by simp only [Bool.and_eq_true] at h; exact h.1)
  · exact switch_moves cfg t s

/-- What every move keeps, a pass keeps. -/
theorem of_moves {P : Execution → Prop} (hmove : ∀ {s s'}, Move cfg t st s s' → P s → P s')
    (h : Moves cfg t st s s') (hs : P s) : P s' := by
  induction h with
  | refl => exact hs
  | tail _ hm ih => exact hmove hm ih

/-- `Q` holds in every state of a run, the states inside its passes included. -/
def Throughout (cfg : Config) (Q : Execution → Prop) (s : Execution) (ts : List Tick) : Prop :=
  Visits (fun s t => s.execute cfg t) (fun s => ∀ t s', Moves cfg t s.state s s' → Q s') s ts

theorem throughout_of_moves {P Q : Execution → Prop} (h0 : P s)
    (hmove : ∀ t st s s', Move cfg t st s s' → P s → P s') (hQ : ∀ s, P s → Q s) (ts : List Tick) :
    Throughout cfg Q s ts := by
  have hall : Along (fun s t => execute cfg s t) (fun _ _ => True) s ts :=
    .of_forall fun _ _ => trivial
  exact visits_of_along
    (fun s t hs _ => of_moves (hmove t _ _ _) (execute_moves cfg t s) hs)
    (fun s hs t s' hm => hQ s' (of_moves (hmove t _ _ _) hm hs)) h0 hall

end FluxCore.Ed2k.Execution
