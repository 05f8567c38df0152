import FluxCore.Ed2k.Answers
import FluxCore.Ed2k.Moves

/-!
# The rounds through the server list

After `MAX_SERVER_ROUNDS` rounds a download gives up. `tryNextPeer` and `serverConnect` do so, and
`serverWaitSources` does not look at the outcome of `reconnectServer`: `rounds_bounded_iff` says
that this is the only way past the limit, and `gives_up` that the servers are left behind where it
is not taken.
-/

namespace FluxCore.Ed2k

/-- The limit is exceeded in the failed state only. -/
def DownloadCommand.Limited (c : DownloadCommand) : Prop :=
  MAX_SERVER_ROUNDS < c.serverRound → c.state = .failure

namespace Execution

variable {cfg : Config} {t : Tick} {st : Ed2kState} {s s' : Execution}

/-- The limit is exceeded in the failed state only, which is never left, and no connection is
attempted from then on. -/
def RoundsBounded (cfg : Config) (s : Execution) : Prop :=
  MAX_SERVER_ROUNDS < s.serverRound → ∀ ts,
    (exec (fun s t => s.execute cfg t) s ts).state = .failure ∧
      (exec (fun s t => s.execute cfg t) s ts).attempts = s.attempts

/-- A pass gets to the handler of the state. -/
def Switches (s : Execution) (t : Tick) : Prop :=
  s.isOver = false ∧ t.ends = false ∧ (s.fileSize = 0 → s.state = .finished) ∧
    (exchanges s.state = true → t.dead = false)

/-- The wait for sources ends at the last server of the last round. -/
def WaitExhausts (s : Execution) (t : Tick) : Prop :=
  Switches s t ∧ s.state = .serverWaitSources ∧ t.timedOut = true ∧
    s.serverList.length ≤ s.currentServerIndex + 1 ∧ MAX_SERVER_ROUNDS ≤ s.serverRound

theorem execute_switch (cfg : Config) (h : Switches s t) : s.execute cfg t = s.switch cfg t := by
  obtain ⟨h1, h2, h3, h4⟩ := h
  unfold execute
  rw [h1, if_neg (by decide), h2, if_neg (by simpa using h3), if_neg (by simpa using h4)]

/-- What happens where a pass does not get to the handler. -/
theorem execute_not_switch (cfg : Config) (h : ¬Switches s t) :
    s.isOver = true ∧ s.execute cfg t = s ∨ s.execute cfg t = { s with returned := true } ∨
      exchanges s.state = true ∧ s.execute cfg t = s.socketDead t := by
  unfold execute
  split
  next hover => exact .inl ⟨hover, rfl⟩
  next hover =>
    split
    · exact .inr (.inl rfl)
    next hends =>
      split
      next hdead =>
        rw [Bool.and_eq_true] at hdead
        exact .inr (.inr ⟨hdead.1, rfl⟩)
      next hdead =>
        simp only [Bool.or_eq_true, Bool.and_eq_true, decide_eq_true_eq, not_or, not_and,
          Bool.not_eq_true] at hover hends hdead
        exact absurd ⟨by simpa using hover, hends.1, by simpa using hends.2, hdead⟩ h

/-! ## The failed state -/

theorem failure_stays (cfg : Config) (ts : List Tick) (h : s.state = .failure) :
    (exec (fun s t => s.execute cfg t) s ts).state = .failure ∧
      (exec (fun s t => s.execute cfg t) s ts).attempts = s.attempts := by
  induction ts generalizing s with
  | nil => exact ⟨h, rfl⟩
  | cons t ts ih =>
    have hpass : (s.execute cfg t).state = .failure ∧ (s.execute cfg t).attempts = s.attempts := by
      unfold execute
      split
      · exact ⟨h, rfl⟩
      split
      · exact ⟨h, rfl⟩
      rw [if_neg (by simp [exchanges, h])]
      unfold switch
      rw [h]
      exact ⟨h, rfl⟩
    obtain ⟨h1, h2⟩ := ih hpass.1
    exact ⟨h1, h2.trans hpass.2⟩

theorem roundsBounded_of_limited (h : s.Limited) : s.RoundsBounded cfg :=
  fun hr ts => failure_stays cfg ts (h hr)

/-! ## The moves -/

theorem limited_tryNextPeer {c : DownloadCommand} (h : c.Limited) (hst : c.state ≠ .failure)
    (wallclock now : Nat) : (c.tryNextPeer wallclock now).Limited := by
  obtain ⟨_, _, _, _, hgoes, hnext⟩ := tryNextPeer_spec c wallclock now
  have hround : c.serverRound ≤ MAX_SERVER_ROUNDS := not_lt.mp fun hr => hst (h hr)
  unfold DownloadCommand.Limited
  rw [hnext]
  cases hgoes with
  | peer _ => exact fun hr => absurd hround (not_le.mpr hr)
  | server _ => exact fun hr => absurd hround (not_le.mpr hr)
  | round _ hle => exact fun hr => absurd hle (not_le.mpr hr)
  | exhausted _ _ => exact fun _ => rfl

theorem limited_handleSendingPart {c : DownloadCommand} (h : c.Limited) (hst : c.state ≠ .failure)
    (payload : Bytes) (is64 writeOk : Bool) (wallclock now : Nat) :
    (c.handleSendingPart payload is64 writeOk wallclock now).2.Limited := by
  have hanswer := c.handleSendingPart_answered payload is64 writeOk wallclock now
  generalize c.handleSendingPart payload is64 writeOk wallclock now = m at hanswer
  cases hanswer with
  | refused hc =>
    rcases hc with rfl | ⟨cur, -, rfl⟩
    · exact limited_tryNextPeer h hst wallclock now
    · refine limited_tryNextPeer ?_ ?_ wallclock now
      exacts [h, hst]
  | ignored _ => exact h
  | accepted _ _ _ hr _ _ =>
    obtain ⟨_, _, _, _, _, _, _, hform, -⟩ :=
      (DownloadCommand.delivers_acceptData _ hr (DownloadCommand.sentData payload is64)
        writeOk).trans (DownloadCommand.delivers_settled now _)
    rw [hform]
    exact h

theorem Follows.ne_failure {st st' : Ed2kState} (h : Follows st st') : st ≠ .failure := by
  cases h <;> decide

theorem Engaged.ne_failure {st : Ed2kState} (h : Engaged st) : st ≠ .failure := by
  rcases h with rfl | rfl | rfl | rfl | rfl <;> decide

theorem PeerPhase.ne_failure {st : Ed2kState} (h : PeerPhase st) : st ≠ .failure := by
  rcases h with rfl | rfl | h
  exacts [by decide, by decide, h.ne_failure]

theorem ServerExchange.ne_failure {st : Ed2kState} (h : ServerExchange st) : st ≠ .failure := by
  rcases h with rfl | rfl | rfl <;> decide

/-- Every move but one keeps the limit. -/
theorem limited_move (hst : st ≠ .serverWaitSources) (hm : Move cfg t st s s') (h : s.Limited) :
    s'.Limited := by
  have hlow : ∀ {st : Ed2kState}, s.state = st → st ≠ .failure →
      s.serverRound ≤ MAX_SERVER_ROUNDS := fun hs hne => not_lt.mp fun hr => hne (hs ▸ h hr)
  have hkeep : ∀ {s' : Execution}, s.serverRound ≤ MAX_SERVER_ROUNDS →
      s'.serverRound = s.serverRound → s'.Limited :=
    fun hr heq hr' => absurd hr (not_le.mpr (heq ▸ hr'))
  cases hm with
  | learn addr port =>
    dsimp only [DownloadCommand.addSource]
    split <;> exact h
  | status hs bitmap =>
    refine hkeep (hlow hs (by decide)) ?_
    dsimp only [DownloadCommand.updatePartAvailability]
    split <;> rfl
  | mark _ f _ => exact h
  | phase hf => exact hkeep (hlow rfl hf.ne_failure) rfl
  | named _ => exact h
  | leave hp => exact limited_tryNextPeer h hp.ne_failure t.turn.wallclock t.now
  | drop he =>
    unfold dropPeer
    split
    · refine limited_tryNextPeer ?_ ?_ t.turn.wallclock t.now
      exacts [h, he.ne_failure]
    · exact limited_tryNextPeer h he.ne_failure t.turn.wallclock t.now
  | nextServer hs => exact hkeep (hlow rfl hs.ne_failure) rfl
  | skipServer hs => exact hkeep (hlow hs (by decide)) rfl
  | serverList hs =>
    refine hkeep (hlow hs (by decide)) ?_
    unfold buildServerList
    split <;> rfl
  | round hs _ hr => exact fun hr' => absurd hr (not_le.mpr hr')
  | exhausted hs _ _ => exact fun _ => rfl
  | tryServer hs _ =>
    refine hkeep (hlow hs (by decide)) ?_
    unfold initiateServer
    dsimp only
    split <;> rfl
  | waited h0 _ => exact absurd h0 hst
  | passOver hs _ _ _ => exact hkeep (hlow hs (by decide)) rfl
  | connect hs _ _ _ => exact hkeep (hlow hs (by decide)) rfl
  | connecting hs _ _ _ => exact hkeep (hlow hs (by decide)) rfl
  | found _ hs _ => exact hkeep (hlow hs (by decide)) rfl
  | refresh hs => exact hkeep (hlow hs (by decide)) rfl
  | fill hs =>
    refine hkeep (hlow hs (by decide)) ?_
    obtain ⟨_, _, _, _, _, hasks, -⟩ := asks_fill t.turn MAX_INFLIGHT_BLOCKS s.toDownloadCommand
    rw [hasks]
  | part hs payload is64 =>
    rw [sendingPart_command]
    exact limited_handleSendingPart h (by rw [hs]; decide) payload is64 _ _ _
  | complete hs _ => exact hkeep (hlow hs (by decide)) rfl
  | verified hs => exact hkeep (hlow hs (by decide)) rfl
  | abort _ => exact h
  | done => exact h

/-! ## A pass -/

/-- A pass that waits for sources. -/
theorem execute_wait (cfg : Config) (t : Tick) (hs : s.state = .serverWaitSources) :
    s.execute cfg t = s ∨ s.execute cfg t = { s with returned := true } ∨
      s.execute cfg t = s.nextServer ∨
      Switches s t ∧ t.timedOut = true ∧ s.execute cfg t =
        { s.resetPeerState with toDownloadCommand := s.toDownloadCommand.reconnectServer.2 } := by
  by_cases hsw : Switches s t
  · rw [execute_switch cfg hsw]
    unfold switch
    rw [hs]
    dsimp only [serverWaitSources]
    split
    next htime => exact .inr (.inr (.inr ⟨hsw, htime, rfl⟩))
    · exact .inl rfl
  · rcases execute_not_switch cfg hsw with ⟨-, heq⟩ | heq | ⟨-, heq⟩
    · exact .inl heq
    · exact .inr (.inl heq)
    · refine .inr (.inr (.inl (heq.trans ?_)))
      unfold socketDead
      rw [if_pos (by simp [hs])]

/-- A pass keeps the limit, unless it waits for sources at the end of the last round. -/
theorem limited_execute (cfg : Config) (t : Tick) (h : s.Limited) (hw : ¬WaitExhausts s t) :
    (s.execute cfg t).Limited := by
  by_cases hs : s.state = .serverWaitSources
  · have hlow : s.serverRound ≤ MAX_SERVER_ROUNDS := by
      by_contra hr
      have := h (not_le.mp hr)
      rw [hs] at this
      cases this
    rcases execute_wait cfg t hs with heq | heq | heq | ⟨hsw, htime, heq⟩ <;> rw [heq]
    · exact h
    · exact h
    · exact fun hr => absurd hlow (not_le.mpr hr)
    · by_cases hlast : s.serverList.length ≤ s.currentServerIndex + 1
      · have hround : s.serverRound + 1 ≤ MAX_SERVER_ROUNDS := by
          by_contra hr
          exact hw ⟨hsw, hs, htime, hlast, by omega⟩
        rw [reconnectServer_round hlast hround]
        exact fun hr => absurd hround (not_le.mpr hr)
      · rw [reconnectServer_server (not_le.mp hlast)]
        exact fun hr => absurd hlow (not_le.mpr hr)
  · exact of_moves (P := fun s => s.Limited) (limited_move hs) (execute_moves cfg t s) h

/-- The wait at the end of the last round goes past the limit, and does not fail. -/
theorem exceeded_of_waitExhausts (cfg : Config) (h : WaitExhausts s t) :
    MAX_SERVER_ROUNDS < (s.execute cfg t).serverRound ∧
      (s.execute cfg t).state = .serverWaitSources := by
  obtain ⟨hsw, hs, htime, hlast, hr⟩ := h
  rw [execute_switch cfg hsw]
  unfold switch
  rw [hs]
  dsimp only [serverWaitSources]
  rw [if_pos htime, reconnectServer_exhausted hlast (by omega)]
  exact ⟨Nat.lt_succ_of_le hr, hs⟩

/-! ## Giving up -/

/-- The length of the server list, which is built when it is needed. -/
def servers (cfg : Config) (s : Execution) : Nat := (s.buildServerList cfg).serverList.length

theorem servers_pos (cfg : Config) (s : Execution) : 0 < servers cfg s := by
  refine List.length_pos_of_ne_nil ?_
  unfold buildServerList
  split
  · dsimp only
    split
    exacts [by simp, cfg.defaultServers_ne]
  next hempty => simpa using hempty

theorem servers_congr (h : s'.serverList = s.serverList) : servers cfg s' = servers cfg s := by
  unfold servers buildServerList
  rw [h]
  split
  exacts [rfl, congrArg List.length h]

theorem servers_build (cfg : Config) (s : Execution) :
    servers cfg (s.buildServerList cfg) = servers cfg s := by
  have hpos := servers_pos cfg s
  unfold servers at hpos ⊢
  generalize s.buildServerList cfg = s' at hpos
  unfold buildServerList
  rw [if_neg (by simpa using List.ne_nil_of_length_pos hpos)]

/-- How far the attempt at the current server has come. -/
def phaseRank (s : Execution) : Nat :=
  match s.state with
  | .serverConnect => if s.socketOpen then 3 else 4
  | .serverLogin => 2
  | .serverGetSources => 1
  | _ => 0

/-- The rounds that are left, the servers of this round that are left, and the phase. -/
def rank (cfg : Config) (s : Execution) : Nat × Nat × Nat :=
  (MAX_SERVER_ROUNDS - s.serverRound, servers cfg s - s.currentServerIndex, s.phaseRank)

/-- The lexicographic order of the ranks. -/
def Lower : Nat × Nat × Nat → Nat × Nat × Nat → Prop :=
  Prod.Lex (· < ·) (Prod.Lex (· < ·) (· < ·))

theorem wellFounded_lower : WellFounded Lower :=
  WellFounded.prod_lex wellFounded_lt (WellFounded.prod_lex wellFounded_lt wellFounded_lt)

theorem lower_round (h : s'.serverRound = s.serverRound + 1)
    (hr : s'.serverRound ≤ MAX_SERVER_ROUNDS) : Lower (rank cfg s') (rank cfg s) :=
  .left _ _ (by omega)

theorem lower_index (hr : s'.serverRound = s.serverRound) (hn : servers cfg s' = servers cfg s)
    (h : s.currentServerIndex < s'.currentServerIndex)
    (hlt : s.currentServerIndex < servers cfg s) : Lower (rank cfg s') (rank cfg s) := by
  unfold rank
  rw [hr, hn]
  exact .right _ (.left _ _ (by omega))

theorem lower_phase (hr : s'.serverRound = s.serverRound) (hn : servers cfg s' = servers cfg s)
    (hi : s'.currentServerIndex = s.currentServerIndex) (h : s'.phaseRank < s.phaseRank) :
    Lower (rank cfg s') (rank cfg s) := by
  unfold rank
  rw [hr, hn, hi]
  exact .right _ (.right _ h)

/-- The servers are being asked, and the one that is being asked is in the list. -/
structure Asking (cfg : Config) (s : Execution) : Prop where
  phase : s.state = .serverConnect ∨ ServerExchange s.state
  round : s.serverRound ≤ MAX_SERVER_ROUNDS
  index : (s.state = .serverConnect → s.socketOpen = true) → s.currentServerIndex < servers cfg s

/-- What comes of a pass that asks the servers. -/
inductive Asked (cfg : Config) (s s' : Execution) : Prop
  | same (h : s' = s)
  | lower (h : Asking cfg s') (hr : Lower (rank cfg s') (rank cfg s))
  | stops (h : s'.isOver = true ∨ s'.state = .failure)
  | sources (h : s'.sources ≠ [])

/-- The server that is picked. -/
inductive Picked (cfg : Config) (s s' : Execution) : Prop
  | exhausted (h : s'.state = .failure)
  | server (hs : s'.state = .serverConnect) (hn : servers cfg s' = servers cfg s)
      (hr : s'.serverRound = s.serverRound) (hlt : s.currentServerIndex < servers cfg s)
      (h : s'.socketOpen = true ∧ s'.currentServerIndex = s.currentServerIndex ∨
        s'.socketOpen = false ∧ s'.currentServerIndex = s.currentServerIndex + 1)
  | round (hs : s'.state = .serverConnect) (hn : servers cfg s' = servers cfg s)
      (hr : s'.serverRound = s.serverRound + 1) (hle : s.serverRound + 1 ≤ MAX_SERVER_ROUNDS)
      (h : s'.socketOpen = true → s'.currentServerIndex = 0)

theorem initiateServer_spec (s : Execution) (t : Tick) :
    (s.initiateServer t).state = s.state ∧ (s.initiateServer t).serverList = s.serverList ∧
      (s.initiateServer t).serverRound = s.serverRound ∧
      ((s.initiateServer t).socketOpen = true ∧
          (s.initiateServer t).currentServerIndex = s.currentServerIndex ∨
        (s.initiateServer t).socketOpen = false ∧
          (s.initiateServer t).currentServerIndex = s.currentServerIndex + 1) := by
  unfold initiateServer
  dsimp only
  split
  · exact ⟨rfl, rfl, rfl, .inl ⟨rfl, rfl⟩⟩
  · exact ⟨rfl, rfl, rfl, .inr ⟨rfl, rfl⟩⟩

theorem pickServer_picked (hs : s.state = .serverConnect) (t : Tick) :
    Picked cfg s (s.pickServer cfg t) := by
  have hbuild : (s.buildServerList cfg).state = .serverConnect ∧
      (s.buildServerList cfg).serverRound = s.serverRound ∧
      (s.buildServerList cfg).currentServerIndex = s.currentServerIndex := by
    unfold buildServerList
    split <;> exact ⟨hs, rfl, rfl⟩
  have hn := servers_build cfg s
  have hlen : (s.buildServerList cfg).serverList.length = servers cfg s := rfl
  unfold pickServer
  generalize s.buildServerList cfg = b at hbuild hn hlen
  obtain ⟨h1, h2, h3⟩ := hbuild
  dsimp only
  rw [hlen, h3]
  split
  · rw [h2]
    split
    · exact .exhausted rfl
    next hr =>
      obtain ⟨h4, h5, h6, h7⟩ := initiateServer_spec
        { b with currentServerIndex := 0, serverRound := s.serverRound + 1 } t
      refine .round (h4.trans h1) ((@servers_congr cfg b _ h5).trans hn) h6 (not_lt.mp hr) fun hopen => ?_
      rcases h7 with ⟨-, hi⟩ | ⟨hclosed, -⟩
      · exact hi
      · rw [hclosed] at hopen
        cases hopen
  next hlt =>
    obtain ⟨h4, h5, h6, h7⟩ := initiateServer_spec b t
    rw [h3] at h7
    exact .server (h4.trans h1) ((servers_congr h5).trans hn) (h6.trans h2) (not_le.mp hlt) h7

/-- The next server, after the one whose connection has failed or while there is none. -/
theorem Picked.asked {b : Execution} (h : Picked cfg b s') (hask : Asking cfg s)
    (hs : s.state = .serverConnect) (hn : servers cfg b = servers cfg s)
    (hr : b.serverRound = s.serverRound)
    (hi : s.socketOpen = false ∧ b.currentServerIndex = s.currentServerIndex ∨
      s.socketOpen = true ∧ b.currentServerIndex = s.currentServerIndex + 1) : Asked cfg s s' := by
  cases h with
  | exhausted h => exact .stops (.inr h)
  | server hs' hn' hr' hlt h =>
    rw [hn] at hlt hn'
    refine .lower ⟨.inl hs', by rw [hr', hr]; exact hask.round, fun hopen => ?_⟩ ?_
    · have := hopen hs'
      rw [hn']
      rcases h with ⟨-, h⟩ | ⟨h, -⟩
      · omega
      · rw [h] at this
        cases this
    rcases hi with ⟨hclosed, hi⟩ | ⟨hopen, hi⟩
    · rcases h with ⟨hopen', h⟩ | ⟨-, h⟩
      · refine lower_phase (hr'.trans hr) hn' (h.trans hi) ?_
        simp [phaseRank, hs, hs', hopen', hclosed]
      · exact lower_index (hr'.trans hr) hn' (by omega) (by omega)
    · refine lower_index (hr'.trans hr) hn' ?_ (hask.index fun _ => hopen)
      rcases h with ⟨-, h⟩ | ⟨-, h⟩ <;> omega
  | round hs' hn' hr' hle h =>
    rw [hr] at hle hr'
    refine .lower ⟨.inl hs', hr'.trans_le hle, fun hopen => ?_⟩ (lower_round hr' (hr'.trans_le hle))
    rw [h (hopen hs')]
    exact servers_pos cfg s'

theorem Asking.nextServer (h : Asking cfg s) (hs : ServerExchange s.state) :
    Asked cfg s s.nextServer := by
  have hne : s.state ≠ .serverConnect := by
    rcases hs with hs | hs | hs <;> exact hs ▸ by decide
  have hn : servers cfg s.nextServer = servers cfg s := servers_congr rfl
  refine .lower ⟨.inl rfl, h.round, fun hopen => ?_⟩
    (lower_index rfl hn (Nat.lt_succ_self _) (h.index fun hc => absurd hc hne))
  cases hopen rfl

/-- The next phase of the attempt at the current server. -/
theorem Asking.advance (h : Asking cfg s) (hindex : s.currentServerIndex < servers cfg s)
    (hl : s'.serverList = s.serverList) (hr : s'.serverRound = s.serverRound)
    (hi : s'.currentServerIndex = s.currentServerIndex) (hs : ServerExchange s'.state)
    (hp : s'.phaseRank < s.phaseRank) : Asked cfg s s' := by
  have hn : servers cfg s' = servers cfg s := servers_congr hl
  refine .lower ⟨.inr hs, hr.trans_le h.round, fun _ => ?_⟩ (lower_phase hr hn hi hp)
  rwa [hi, hn]

/-- A pass that asks the servers comes closer to the end of the last round. -/
theorem Asking.execute (hcfg : cfg.serverSourceEnabled = true) (h : Asking cfg s)
    (hw : ¬WaitExhausts s t) : Asked cfg s (s.execute cfg t) := by
  by_cases hsw : Switches s t
  swap
  · rcases execute_not_switch cfg hsw with ⟨-, heq⟩ | heq | ⟨hex, heq⟩ <;> rw [heq]
    · exact .same rfl
    · exact .stops (.inl (by simp [isOver]))
    · have hs : ServerExchange s.state := h.phase.resolve_left fun hs => by
        rw [hs] at hex
        cases hex
      have hdead : s.socketDead t = s.nextServer := by
        unfold socketDead
        exact if_pos (by simpa [ServerExchange, or_assoc] using hs)
      rw [hdead]
      exact h.nextServer hs
  rw [execute_switch cfg hsw]
  unfold switch
  rcases h.phase with hs | hs | hs | hs <;> rw [hs] <;> dsimp only
  · have hskip : Asked cfg s ({ s.resetPeerState with
        currentServerIndex := s.currentServerIndex + 1 }.pickServer cfg t) ∨
          s.socketOpen = false := by
      cases hopen : s.socketOpen with
      | false => exact .inr rfl
      | true =>
        refine .inl ((pickServer_picked ?_ t).asked h hs ?_ rfl (.inr ⟨hopen, rfl⟩))
        exacts [hs, servers_congr rfl]
    unfold connectPhase
    rw [hcfg]
    dsimp only [serverConnect]
    split
    next hnot => cases hnot
    split
    next hopen =>
      have hskip := hskip.resolve_right (by rw [hopen]; decide)
      split
      · split
        exacts [hskip, .same rfl]
      · refine h.advance (h.index fun _ => hopen) rfl rfl rfl (.inl rfl) ?_
        simp [phaseRank, hs, hopen]
      · exact hskip
    next hopen =>
      exact (pickServer_picked hs t).asked h hs rfl rfl (.inl ⟨by simpa using hopen, rfl⟩)
  · have hindex : s.currentServerIndex < servers cfg s := h.index fun hc => by
      rw [hs] at hc
      cases hc
    have hnext := h.nextServer (.inl hs)
    unfold serverLogin
    split
    · exact .same rfl
    · exact hnext
    split
    · exact .same rfl
    split
    · refine h.advance hindex rfl rfl rfl (.inr (.inl rfl)) ?_
      simp [phaseRank, hs]
    · exact hnext
  · have hindex : s.currentServerIndex < servers cfg s := h.index fun hc => by
      rw [hs] at hc
      cases hc
    have hwait : ∀ sources, Asked cfg s { s with sources, state := .serverWaitSources } := by
      intro sources
      refine h.advance hindex rfl rfl rfl (.inr (.inr rfl)) ?_
      simp [phaseRank, hs]
    unfold serverGetSources
    split
    · exact .stops (.inl (by simp [isOver, abort]))
    split
    · exact .same rfl
    · exact h.nextServer (.inr (.inl hs))
    split
    · exact .same rfl
    split
    · exact hwait s.sources
    split
    · exact .same rfl
    next f _ _ _ _ =>
      obtain ⟨sources, hform⟩ := addSources_form (foundSources f.payload) s.toDownloadCommand
        t.turn.wallclock t.now
      rw [hform]
      dsimp only
      split
      · exact hwait sources
      next hsome => exact .sources (by simpa using hsome)
  · have hindex : s.currentServerIndex < servers cfg s := h.index fun hc => by
      rw [hs] at hc
      cases hc
    unfold serverWaitSources
    split
    next htime =>
      by_cases hlast : s.serverList.length ≤ s.currentServerIndex + 1
      · have hround : s.serverRound + 1 ≤ MAX_SERVER_ROUNDS := by
          by_contra hr
          exact hw ⟨hsw, hs, htime, hlast, by omega⟩
        rw [reconnectServer_round hlast hround]
        refine .lower ⟨.inl rfl, hround, fun _ => ?_⟩ (lower_round rfl hround)
        exact servers_pos cfg _
      · rw [reconnectServer_server (not_le.mp hlast)]
        refine .lower ⟨.inl rfl, h.round, fun hopen => ?_⟩
          (lower_index rfl (servers_congr rfl) (Nat.lt_succ_self _) hindex)
        cases hopen rfl
    · exact .same rfl

/-! ## Runs -/

variable (cfg) (fileSize : Int) (rawFileHash : Bytes) (serverList : List (String × Nat))
  (maxSources : Nat) (ps : Storage.DefaultPieceStorage) (created : Nat)

theorem asking_start :
    Asking cfg (start fileSize rawFileHash serverList maxSources ps created) :=
  ⟨.inl rfl, Nat.zero_le _, fun _ => servers_pos cfg _⟩

/-- A download without sources gives up when no wait is without an end. -/
theorem gives_up (hcfg : cfg.serverSourceEnabled = true) (ts : Nat → Tick) :
    let run := stateAt (fun s t => execute cfg s t)
      (start fileSize rawFileHash serverList maxSources ps created) ts
    (∀ n, ¬WaitExhausts (run n) (ts n)) → (∀ n, (run n).sources = []) →
      (∀ n, (run n).isOver = false → (run n).state ≠ .failure →
        ∃ m, n ≤ m ∧ run (m + 1) ≠ run m) →
      ∃ n, (run n).isOver = true ∨ (run n).state = .failure := by
  intro run hw hsources hchange
  by_contra hgo
  simp only [not_exists, not_or, Bool.not_eq_true] at hgo
  have hasked : ∀ n, Asking cfg (run n) → Asked cfg (run n) (run (n + 1)) :=
    fun n hn => hn.execute hcfg (hw n)
  have hasking : ∀ n, Asking cfg (run n) := by
    intro n
    induction n with
    | zero => exact asking_start cfg fileSize rawFileHash serverList maxSources ps created
    | succ n ih =>
      cases hasked n ih with
      | same h => rwa [h]
      | lower h _ => exact h
      | stops h =>
        rcases h with h | h
        · rw [(hgo (n + 1)).1] at h
          cases h
        · exact absurd h (hgo (n + 1)).2
      | sources h => exact absurd (hsources (n + 1)) h
  obtain ⟨n, hn⟩ := exists_not_of_rank (Q := fun s => Asking cfg s) wellFounded_lower (rank cfg)
    (fun n hn hne => by
      cases hasked n hn with
      | same h => exact absurd h hne
      | lower _ hr => exact hr
      | stops h =>
        rcases h with h | h
        · rw [(hgo (n + 1)).1] at h
          cases h
        · exact absurd h (hgo (n + 1)).2
      | sources h => exact absurd (hsources (n + 1)) h)
    fun n => hchange n (hgo n).1 (hgo n).2
  exact hn (hasking n)

end Execution

open Execution

/-- The rounds stay bounded in the runs that do not wait for sources at the end of the last round,
and in them only; and such a run without sources does not ask the servers for ever. -/
theorem rounds_bounded_iff (cfg : Config) (fileSize : Int) (rawFileHash : Bytes)
    (serverList : List (String × Nat)) (maxSources : Nat) (ps : Storage.DefaultPieceStorage)
    (created : Nat) :
    (∀ ts, Visits (fun s t => execute cfg s t) (fun s => s.RoundsBounded cfg)
        (Execution.start fileSize rawFileHash serverList maxSources ps created) ts ↔
      Along (fun s t => execute cfg s t) (fun s t => ¬WaitExhausts s t)
        (Execution.start fileSize rawFileHash serverList maxSources ps created) ts) ∧
    (cfg.serverSourceEnabled = true → ∀ ts : Nat → Tick,
      let run := stateAt (fun s t => execute cfg s t)
        (Execution.start fileSize rawFileHash serverList maxSources ps created) ts
      (∀ n, ¬WaitExhausts (run n) (ts n)) → (∀ n, (run n).sources = []) →
        (∀ n, (run n).isOver = false → (run n).state ≠ .failure →
          ∃ m, n ≤ m ∧ run (m + 1) ≠ run m) →
        ∃ n, (run n).isOver = true ∨ (run n).state = .failure) := by
  refine ⟨fun ts => ?_,
    fun hcfg => gives_up cfg fileSize rawFileHash serverList maxSources ps created hcfg⟩
  have hstart : (Execution.start fileSize rawFileHash serverList maxSources ps created).Limited :=
    fun hr => absurd hr (Nat.not_lt_zero _)
  have hall : Along (fun s t => execute cfg s t) (fun _ _ => True)
      (Execution.start fileSize rawFileHash serverList maxSources ps created) ts :=
    .of_forall fun _ _ => trivial
  let inv (s : Execution) : Prop := s.Limited
  have hstep : ∀ (s : Execution) (t : Tick), inv s → True → ¬WaitExhausts s t →
      inv (s.execute cfg t) := fun s t h _ hw => limited_execute cfg t h hw
  refine visits_iff_along hstep (fun s h => roundsBounded_of_limited h)
    (fun s t _ _ hw hQ => ?_) hstart hall
  obtain ⟨hr, hs⟩ := exceeded_of_waitExhausts cfg (not_not.mp hw)
  have := (hQ hr []).1
  rw [exec, hs] at this
  cases this

/-- The only server has no sources, six times over. -/
theorem rounds_exceeded :
    ¬Visits (fun s t => execute ⟨true, true, "", 0, [("", 0)], nofun⟩ s t)
      (fun s => s.RoundsBounded ⟨true, true, "", 0, [("", 0)], nofun⟩)
      (Execution.start 1000000 (List.replicate 16 0) [("10.0.0.9", 4661)] 100
        { bitfieldMan := .new 1048576 1000000 } 0)
      ((List.replicate 6 [pass .nothing, received ID_CHANGE [],
        received FOUND_SOURCES (List.replicate 17 0),
        { pass .nothing with timedOut := true }, pass .nothing]).flatten.take 29) := by
  intro h
  exact absurd (h.last (by decide +kernel) []).1 (by decide +kernel)

end FluxCore.Ed2k
