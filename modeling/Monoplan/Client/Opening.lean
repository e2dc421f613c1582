import Monoplan.Client.Host

/-!
# The opening frame comes first

The server answers any other frame for a document that is not open with an error and closes the
connection, so what the host pops between connecting and the next disconnect has to begin with
`OpenDoc` (`OpensFirst`).

`handle_connected` queues that frame at the *end* of the outbox.  It comes first where nothing is
queued while the engine is offline, and a durable notice is the one call that can
(`opened_first`); an ack left there is popped ahead of the opening (`ack_before_open`).
-/

namespace Monoplan.Client

open Monoplan.Base Monoplan.Protocol

/-! ## The order on the socket -/

/-- Every frame popped is the opening one or comes after it, on the same connection; `opened`
says whether it has been popped. -/
def OpensFirst (opened : Bool) : List SocketMark → Prop
  | [] => True
  | .popped f :: ms => (f = .openDoc ∨ opened = true) ∧ OpensFirst (opened || f = .openDoc) ms
  | _ :: ms => OpensFirst false ms

/-- Whether the opening frame has been popped on the connection a log ends on. -/
def openedBy (opened : Bool) : List SocketMark → Bool
  | [] => opened
  | .popped f :: ms => openedBy (opened || f = .openDoc) ms
  | _ :: ms => openedBy false ms

instance decidableOpensFirst : (o : Bool) → (ms : List SocketMark) → Decidable (OpensFirst o ms)
  | _, [] => inferInstanceAs (Decidable True)
  | o, .popped f :: ms =>
    have := decidableOpensFirst (o || f = .openDoc) ms
    inferInstanceAs (Decidable (_ ∧ _))
  | _, .connected :: ms => decidableOpensFirst false ms
  | _, .disconnected :: ms => decidableOpensFirst false ms

theorem opensFirst_append (o : Bool) (ms ns : List SocketMark) :
    OpensFirst o (ms ++ ns) ↔ OpensFirst o ms ∧ OpensFirst (openedBy o ms) ns := by
  induction ms generalizing o with
  | nil => simp [OpensFirst, openedBy]
  | cons m ms ih =>
    cases m with
    | popped f => simp only [List.cons_append, OpensFirst, openedBy, ih, and_assoc]
    | connected => exact ih false
    | disconnected => exact ih false

theorem openedBy_append (o : Bool) (ms ns : List SocketMark) :
    openedBy o (ms ++ ns) = openedBy (openedBy o ms) ns := by
  induction ms generalizing o with
  | nil => rfl
  | cons m ms ih => cases m <;> exact ih _

/-! ## The condition and its invariant -/

/-- A durable notice that comes while the engine is offline advances nothing. -/
def NoOfflineAdvance (h : Host) (l : HostStep) : Prop :=
  ∀ n, l.call = .notifyOplogDurable n → h.engine.state = .disconnected →
    min n h.engine.lastContiguousSeq ≤ h.engine.lastDurableSeq

/-- Offline the outbox is empty; online the opening frame has been popped or is at its head. -/
structure OpenInv (h : Host) : Prop where
  inOrder : OpensFirst false h.log
  offline : h.engine.isOnline = false → h.engine.outbox = []
  online : h.engine.isOnline = true →
    openedBy false h.log = true ∨ h.engine.outbox.head? = some .openDoc

variable {H : History} {h h' : Host} {l : HostStep}

theorem booted_offline (h0 : h.Booted) : h.engine.isOnline = false ∧ h.engine.outbox = [] := by
  obtain ⟨d, _, hd⟩ := Option.map_eq_some_iff.1 h0.1
  rw [← hd]
  exact ⟨rfl, rfl⟩

theorem openInv_of_booted (h0 : h.Booted) : OpenInv h where
  inOrder := by
    rw [h0.2.1]
    trivial
  offline := fun _ => (booted_offline h0).2
  online := fun hon => by
    rw [(booted_offline h0).1] at hon
    exact absurd hon (by simp)

theorem openInv_pop (hi : OpenInv h) {f : ClientFrame Blob}
    (hout : h.engine.outbox = f :: h'.engine.outbox)
    (he : h'.engine = { h.engine with outbox := h.engine.outbox.tail })
    (hlog : h'.log = h.log ++ [SocketMark.popped f]) : OpenInv h' := by
  have hon : h'.engine.isOnline = h.engine.isOnline := by
    rw [he]
    rfl
  have hne : h.engine.isOnline = true := by
    by_contra hoff
    rw [hi.offline (by simpa using hoff)] at hout
    exact absurd hout (by simp)
  have hopen : f = .openDoc ∨ openedBy false h.log = true := by
    rcases hi.online hne with ho | hhead
    · exact .inr ho
    · rw [hout, List.head?_cons] at hhead
      exact .inl (Option.some.inj hhead)
  refine ⟨?_, ?_, fun _ => .inl ?_⟩
  · rw [hlog, opensFirst_append]
    exact ⟨hi.inOrder, hopen, trivial⟩
  · intro hoff
    rw [hon, hne] at hoff
    exact absurd hoff (by simp)
  · rw [hlog, openedBy_append]
    rcases hopen with hf | ho
    · simp [openedBy, hf]
    · simp [openedBy, ho]

/-- Frames queued online go behind what is there. -/
theorem openInv_queue (hi : OpenInv h) {fs : List (ClientFrame Blob)}
    (hon : h'.engine.isOnline = h.engine.isOnline)
    (hout : h'.engine.outbox = h.engine.outbox ++ fs)
    (hoff : h.engine.isOnline = false → fs = []) (hlog : h'.log = h.log) : OpenInv h' where
  inOrder := hlog ▸ hi.inOrder
  offline h0 := by
    rw [hon] at h0
    rw [hout, hi.offline h0, hoff h0]
    rfl
  online h1 := by
    rw [hlog, hout]
    rcases hi.online (hon ▸ h1) with ho | hhead
    · exact .inl ho
    · exact .inr (by rw [List.head?_append, hhead]; rfl)

theorem openInv_moves (hi : OpenInv h) (hm : Moves h.engine h'.engine)
    (hlog : h'.log = h.log ++
      if h.engine.isOnline = h'.engine.isOnline then [] else [SocketMark.disconnected]) :
    OpenInv h' := by
  rcases hm.outbox with ⟨hon, fs, _, hout, hoff⟩ | ⟨hon, hdown, hempty⟩
  · rw [if_pos hon.symm, List.append_nil] at hlog
    exact openInv_queue hi hon hout hoff hlog
  · rw [hon, hdown] at hlog
    refine ⟨?_, fun _ => hempty, fun h1 => ?_⟩
    · rw [hlog, opensFirst_append]
      exact ⟨hi.inOrder, trivial⟩
    · rw [hdown] at h1
      exact absurd h1 (by simp)

theorem openInv_connect (hi : OpenInv h) (hoff : h.engine.isOnline = false)
    (he : h'.engine = h.engine.handleConnected) (hlog : h'.log = h.log ++ [SocketMark.connected]) :
    OpenInv h' := by
  have hst : h.engine.state = .disconnected := by
    simpa [Engine.isOnline] using hoff
  rw [Engine.handleConnected, if_pos hst] at he
  have hout : h'.engine.outbox = [.openDoc] := by
    rw [he]
    show h.engine.outbox ++ [ClientFrame.openDoc] = _
    rw [hi.offline hoff]
    rfl
  refine ⟨?_, fun h0 => ?_, fun _ => .inr (by rw [hout]; rfl)⟩
  · rw [hlog, opensFirst_append]
    exact ⟨hi.inOrder, trivial⟩
  · rw [he] at h0
    exact absurd h0 (by simp [Engine.isOnline, Engine.send, Engine.emit])

theorem openInv_step (hi : OpenInv h) (hok : NoOfflineAdvance h l) (hs : h.step H l = some h') :
    OpenInv h' := by
  obtain ⟨_, f, hout, he, hlog⟩ | ⟨_, hoff, he, hlog⟩ | ⟨n, hc, hlt, hq, hlog⟩ | ⟨hm, hlog⟩ :=
    step_cases hs
  · exact openInv_pop hi hout he hlog
  · exact openInv_connect hi hoff he hlog
  · -- The notice advances the cursor, so the engine is online.
    have hst : h.engine.state ≠ .disconnected := by
      intro hst
      have hle := hok n hc hst
      omega
    obtain ⟨fs, hfs⟩ := queueAckIfAdvanced_outbox
      { h.engine with lastDurableSeq := min n h.engine.lastContiguousSeq }
    refine openInv_queue hi ?_ (hq.outbox.trans hfs) (fun hoff => ?_) hlog
    · rw [hq.isOnline, queueAckIfAdvanced_isOnline]
      rfl
    · rw [isOnline_iff.2 hst] at hoff
      exact absurd hoff (by simp)
  · exact openInv_moves hi hm hlog

/-- **The opening frame comes first.**  In every order of host calls in which no durable notice
advances the cursor offline, whatever storage calls fail, nothing is popped ahead of the
`OpenDoc` of its connection. -/
theorem opened_first (hr : (hosting H).Reach NoOfflineAdvance h) : OpensFirst false h.log := by
  have hinv : OpenInv h :=
    hr.invariant (fun _ h0 => openInv_of_booted h0) fun _ _ _ _ hi hok hs => openInv_step hi hok hs
  exact hinv.inOrder

/-! ## An ack from the time offline -/

/-- A device that has nothing on disk. -/
def freshHost : Host := ⟨Engine.new .empty 0, .empty, [], 0⟩

theorem freshHost_booted : freshHost.Booted := by
  refine ⟨?_, rfl, rfl⟩
  decide

/-- Connect, pull one update, and have it made durable in time. -/
def pullAndAck : List HostStep :=
  [⟨.handleConnected, []⟩, ⟨.popOutbox, []⟩,
    ⟨.handleServerBytes (some (.docOpened 1)) 0, []⟩, ⟨.popOutbox, []⟩,
    ⟨.handleServerBytes (some (.updatesBatch [⟨1, History.byPeer.seal (.updates ∅)⟩] true)) 0, []⟩,
    ⟨.notifyOplogDurable 1, []⟩, ⟨.popOutbox, []⟩]

/-- The test of `NoOfflineAdvance` a run is checked with. -/
def noOfflineAdvanceb (h : Host) (l : HostStep) : Bool :=
  match l.call with
  | .notifyOplogDurable n =>
    decide (h.engine.state ≠ .disconnected) ||
      decide (min n h.engine.lastContiguousSeq ≤ h.engine.lastDurableSeq)
  | _ => true

theorem noOfflineAdvanceb_sound (h : Host) (l : HostStep) (hb : noOfflineAdvanceb h l = true) :
    NoOfflineAdvance h l := by
  intro n hc hst
  simp only [noOfflineAdvanceb, hc, hst, Bool.or_eq_true, decide_eq_true_eq] at hb
  exact hb.resolve_left fun hne => hne rfl

theorem opened_first_pullAndAck :
    ∃ h, (hosting History.byPeer).Reach NoOfflineAdvance h ∧
      h.log = [.connected, .popped .openDoc, .popped (.pullUpdates 0), .popped (.ack 1)] ∧
      OpensFirst false h.log := by
  have hrun : ((hosting History.byPeer).exec freshHost pullAndAck).map Host.log =
      some [.connected, .popped .openDoc, .popped (.pullUpdates 0), .popped (.ack 1)] := by
    decide
  have hok : (hosting History.byPeer).allStepsb noOfflineAdvanceb freshHost pullAndAck = true := by
    decide
  obtain ⟨h, hs, hlog⟩ := Option.map_eq_some_iff.1 hrun
  have hreach : (hosting History.byPeer).Reach NoOfflineAdvance h :=
    Machine.Reach.exec (.init freshHost_booted)
      (Machine.allSteps_of_allStepsb noOfflineAdvanceb_sound hok) hs
  exact ⟨h, hreach, hlog, opened_first hreach⟩

/-- The same pull, but the connection drops before the update is durable. -/
def lateNotice : List HostStep :=
  [⟨.handleConnected, []⟩, ⟨.popOutbox, []⟩,
    ⟨.handleServerBytes (some (.docOpened 1)) 0, []⟩, ⟨.popOutbox, []⟩,
    ⟨.handleServerBytes (some (.updatesBatch [⟨1, History.byPeer.seal (.updates ∅)⟩] true)) 0, []⟩,
    ⟨.handleDisconnected, []⟩, ⟨.notifyOplogDurable 1, []⟩, ⟨.handleConnected, []⟩,
    ⟨.popOutbox, []⟩]

/-- **An ack can be popped before the opening frame.**  The notice for an update comes after its
connection has dropped; the next connection begins with the ack. -/
theorem ack_before_open :
    ∃ h, (hosting History.byPeer).Reachable h ∧
      h.log = [.connected, .popped .openDoc, .popped (.pullUpdates 0), .disconnected, .connected,
        .popped (.ack 1)] ∧ ¬ OpensFirst false h.log := by
  have hrun : ((hosting History.byPeer).exec freshHost lateNotice).map Host.log =
      some [.connected, .popped .openDoc, .popped (.pullUpdates 0), .disconnected, .connected,
        .popped (.ack 1)] := by
    decide
  obtain ⟨h, hs, hlog⟩ := Option.map_eq_some_iff.1 hrun
  refine ⟨h, Machine.reach_of_exec freshHost_booted hs, hlog, ?_⟩
  rw [hlog]
  decide

end Monoplan.Client
