import PgMux.RelayTurns

/-!
# Whether a session comes to a standstill

A client that waits behind a Flush waits for ever: the proxy holds the batch until a Sync comes. So
does a client that ends a COPY which it started in a batch, whose Sync stays unread. Nothing else
stops a session.
-/

namespace PgMux.Deadlocks

open Conversation Effects Protocol Relay
open Phases (Guarded Phase Suits isRequest phases safe_phases)
open Router (Session)
open Pools (Conn Pool)
open Wire (msgCopyDone msgCopyInResponse msgReadyForQuery)

def Holds (h : Habits) (s : Sys) : Phase → Prop
  | .clear asked => (∀ c, Along c (Tidy h []) Calm s) ∧ (asked = false → s.request = false)
  | .owed msg _ => ∀ c, Along c (Tidy h [weight h msg]) Calm s
  | .sent c msg _ => Talking h c (weight h msg) false s
  | .lost => False

section

variable {h : Habits} {env : Env} {c : Conn} {msg : Message} {s t : Sys}

theorem moves_request (hm : Moves h s t) : t.request = s.request := by
  induction hm with
  | refl => rfl
  | tail _ hstep ih =>
    cases hstep with
    | client | backend => exact ih

theorem Holds.moves (hp : h.Plain) {u : Phase} (hs : Holds h s u) (hm : Moves h s t) :
    Holds h t u := by
  cases u with
  | clear asked =>
    refine ⟨fun c => (hs.1 c).moves (keeps_tidy hp _) keeps_calm hm, fun hasked => ?_⟩
    exact (moves_request hm).trans (hs.2 hasked)
  | owed msg w => exact fun c => (hs c).moves (keeps_tidy hp _) keeps_calm hm
  | sent c msg w => exact Along.moves hs (keeps_tidy hp _) (keeps_busy hp _ _) hm
  | lost => exact hs

theorem Holds.flushed {u : Phase} (hs : Holds h s u) : s.client.flushed = false := by
  cases u with
  | clear asked => exact (hs.1 0).client.flushed
  | owed msg w => exact (hs 0).client.flushed
  | sent c msg w => exact hs.client.flushed
  | lost => exact hs.elim

theorem holds_read {v : Vars} {i : Input} {rest : List Message}
    (hs : ∀ c, Along c (Tidy h []) Calm s) (hunread : s.unread = i.msg :: rest) :
    Holds h { s with unread := rest, request := isRequest i.msg } (.read env v i) := by
  have htidy := (hs 0).client
  rw [hunread] at htidy
  have hread := htidy.read
  unfold Phase.read
  split
  · next hreq =>
    rw [if_pos hreq] at hread
    exact fun c => ⟨hread, (hs c).line, (hs c).others⟩
  · next hno =>
    rw [if_neg hno] at hread
    exact ⟨fun c => ⟨hread, (hs c).line, (hs c).others⟩, fun _ => Bool.eq_false_iff.mpr hno⟩

theorem holds_ready {m : Message} (hs : ∀ c, Along c (Tidy h [weight h msg]) Calm s)
    (hz : m.type = msgReadyForQuery) :
    Holds h { s with client := s.client.receive m } (.clear true) :=
  ⟨fun c => ⟨(hs c).client.ready hz, (hs c).line, (hs c).others⟩, nofun⟩

theorem busy_push {b : Backend} {r : Request} {ms : List Message} (hb : Calm b)
    (hr : Suits env msg r) (hms : messagesOf r = some ms) :
    Busy h (weight h msg) false (b.push ms) := by
  refine .inl ⟨?_, closes_notices hb.outbox⟩
  change Faces h _ b.stage (b.inbox ++ ms)
  rw [hb.stage]
  cases r with
  | forward m =>
    obtain ⟨hquery, rfl⟩ := hr
    obtain rfl : [m] = ms := Option.some.inj hms
    exact .inl ⟨b.inbox, m, rfl, hb.inbox, hquery, (if_pos hquery).symm⟩
  | batch buf sync =>
    obtain ⟨hsync, rfl, hbuf⟩ := hr
    obtain rfl : buf ++ [sync] = ms := Option.some.inj hms
    refine .inr ⟨b.inbox ++ buf, sync, (List.append_assoc ..).symm, ?_, hsync⟩
    exact List.forall_mem_append.mpr ⟨fun x hx => isRequest_of_isCopy (hb.inbox x hx), hbuf⟩
  | synthesized | describe => exact nomatch hms

theorem holds_step (hp : h.Plain) (o : Op) (s : Sys) (u : Phase) (ans : Ans o) (t : Sys)
    (hs : Holds h s u) (hguard : Guarded env o u) (hstep : session h o s ans t) :
    ∃ u', phases env o u ans u' ∧ Holds h t u' := by
  obtain ⟨s', hact, hm⟩ := hstep
  cases o with
  | recv v =>
    obtain ⟨asked, rfl⟩ := hguard
    cases ans with
    | none =>
      obtain rfl : s' = s := hact
      exact ⟨.clear asked, ⟨rfl, trivial⟩, hs.moves hp hm⟩
    | some i =>
      obtain ⟨rest, hunread, rfl⟩ := hact
      exact ⟨.read env v i, ⟨rfl, trivial⟩, (holds_read hs.1 hunread).moves hp hm⟩
  | allow =>
    obtain ⟨hplace, rfl⟩ := hact
    refine ⟨u, ⟨rfl, hplace.imp_right fun hreq hclear => ?_⟩, hs.moves hp hm⟩
    subst hclear
    exact nomatch hreq.symm.trans (hs.2 rfl)
  | client m =>
    obtain ⟨rfl, rfl⟩ := hact
    cases m with
    | readyForQuery status =>
      obtain ⟨msg, w, rfl⟩ := hguard
      exact ⟨.clear true, ⟨rfl, trivial⟩,
        Holds.moves hp (holds_ready (m := ⟨_, [status]⟩) hs rfl) hm⟩
    | cached =>
      obtain ⟨msg, w, rfl⟩ := hguard
      exact ⟨.clear true, ⟨rfl, trivial⟩, Holds.moves hp (holds_ready (m := ⟨_, []⟩) hs rfl) hm⟩
    | error | parseComplete | bindComplete | closeComplete =>
      have hsame : ({ s.client with flushed := false } : Client) = s.client := by rw [← hs.flushed]
      have hheard : ({ s with client := { s.client with flushed := false } } : Sys) =
        s := by rw [hsame]
      exact ⟨u, ⟨rfl, trivial⟩, hs.moves hp (hheard ▸ hm)⟩
  | send c r =>
    obtain ⟨rfl, ms, hms, rfl⟩ := hact
    cases r with
    | describe => exact nomatch hms
    | _ =>
      obtain ⟨msg, w, rfl, hsuits⟩ := hguard
      have htalk : Talking h c (weight h msg) false (s.setLine c ((s.lines c).push ms)) :=
        (hs c).set (busy_push (hs c).line hsuits hms)
      exact ⟨.sent c msg w, ⟨rfl, fun _ => rfl⟩, Holds.moves (u := .sent c msg w) hp htalk hm⟩
  | relay c =>
    obtain ⟨msg, w, rfl⟩ := hguard
    obtain ⟨n, hreach⟩ := hact
    have hend := (safe_relayUntilReady hp n hs).reach hreach
    cases ans with
    | false => exact hend.elim
    | true => exact ⟨.clear true, ⟨rfl, fun _ => rfl⟩, Holds.moves hp ⟨hend.calm, nofun⟩ hm⟩
  | collect c =>
    obtain ⟨msg, w, rfl⟩ := hguard
    obtain ⟨maxSize, n, hreach⟩ := hact
    have hend := (safe_relayAndCollect hp maxSize n _ hs).reach hreach
    cases ans with
    | none => exact hend.elim
    | some kept => exact ⟨.clear true, ⟨rfl, trivial⟩, Holds.moves hp ⟨hend.calm, nofun⟩ hm⟩
  | _ =>
    obtain rfl : s' = s := hact
    exact ⟨u, ⟨rfl, trivial⟩, hs.moves hp hm⟩

theorem holds_start : Holds h Sys.start (.clear false) :=
  ⟨fun _ => ⟨⟨rfl, rfl, nofun⟩, ⟨rfl, nofun, nofun⟩, fun _ _ => ⟨rfl, nofun, nofun⟩⟩, fun _ => rfl⟩

theorem not_deadlock (hp : h.Plain) {s₀ : Sys} {n : Nat} {ses : Session} {p : Run Unit} {o : Op}
    (hm : Moves h Sys.start s₀) (hr : Reach (session h) (relayQueries env n ses) s₀ p s)
    (ho : p.head = some o) : ¬ Deadlock h o s := by
  have hsafe := (@safe_phases env n ses).refine (holds_step hp) (holds_start.moves hp hm)
  obtain ⟨u, hs, hguard⟩ := hsafe.guarded hr ho
  cases o with
  | recv v =>
    obtain ⟨asked, rfl⟩ := hguard
    exact fun hdead => (hs.1 0).client.unread_ne hdead.1 hdead.2
  | relay c =>
    obtain ⟨msg, w, rfl⟩ := hguard
    rintro ⟨n, q, o, t, hreach, hq, hstuck⟩
    exact (safe_relayUntilReady hp n hs).guarded hreach hq hstuck
  | collect c =>
    obtain ⟨msg, w, rfl⟩ := hguard
    rintro ⟨maxSize, n, q, o, t, hreach, hq, hstuck⟩
    exact (safe_relayAndCollect hp maxSize n _ hs).guarded hreach hq hstuck
  | _ => exact id

end

/-! ## Runs -/

theorem moves_line {h : Habits} {s : Sys} {c : Conn} {b : Backend}
    (hb : Relation.ReflTransGen (Backend.Moves h.copies) (s.lines c) b) :
    Moves h s (s.setLine c b) := by
  induction hb with
  | refl =>
    have hsame : s.setLine c (s.lines c) = s := by rw [Sys.setLine, Function.update_eq_self]
    rw [hsame]
  | @tail b b' _ hstep ih =>
    have hmove : Move h (s.setLine c b) ((s.setLine c b).setLine c b') :=
      .backend c (by rwa [Sys.lines_setLine_self])
    rw [Sys.setLine_setLine] at hmove
    exact ih.tail hmove

def parse : Message := ⟨msgParse, []⟩
def bind : Message := ⟨msgBind, []⟩
def flush : Message := ⟨msgFlush, []⟩
def sync : Message := ⟨msgSync, []⟩

theorem flush_held {h : Habits} (hflushes : h.flushes = true) : ∃ s p t v, Moves h Sys.start s ∧
      Reach (session h) (relayQueries (plainEnv false) 3 (Session.new 0 false false)) s p t ∧
      p.head = some (.recv v) ∧ t.client.Waits ∧ t.unread = [] ∧ v.extBuf = [parse, flush] := by
  have hmoves : Moves h Sys.start ⟨⟨0, true, true, .free⟩, [parse, flush], fun _ => .new, false⟩ :=
    (Relation.ReflTransGen.single (.client (.message rfl rfl (m := parse) (by decide) nofun))).tail
      (.client (.flush ⟨rfl, .inl rfl⟩ (m := flush) rfl fun _ => ⟨hflushes, rfl⟩))
  exact ⟨_, _, _, _, hmoves,
    .ask (some (plainInput msgParse [])) _ ⟨_, ⟨_, rfl, rfl⟩, .refl⟩
      (.ask true _ ⟨_, ⟨.inl rfl, rfl⟩, .refl⟩
    (.ask (some (plainInput msgFlush [])) _ ⟨_, ⟨_, rfl, rfl⟩, .refl⟩
      (.ask true _ ⟨_, ⟨.inl rfl, rfl⟩, .refl⟩ .refl))), rfl, .inl rfl, rfl, rfl⟩

def copyReply : List Message := [⟨49, []⟩, ⟨50, []⟩, ⟨msgCopyInResponse, []⟩]

theorem copy_started {copies : Message → Nat} {m : Message} {k : Nat} (hm : m.type = msgExecute)
    (hcopies : copies m = k + 1) : Relation.ReflTransGen (Backend.Moves copies)
      ⟨.idle, [parse, bind, m, sync], []⟩ ⟨.copyIn true k, [], copyReply⟩ := by
  have hparse : Takes copies .idle parse [⟨49, []⟩] .idle := .message (by decide) rfl (.inl rfl)
  have hbind : Takes copies .idle bind [⟨50, []⟩] .idle := .message (by decide) rfl (.inl rfl)
  have hcopy : Takes copies .idle m ([] ++ [⟨msgCopyInResponse, []⟩])
      (.copyIn (m.type == msgExecute) k) :=
    .copy (.inr hm) hcopies rfl rfl
  have hsync : Takes copies (.copyIn true k) sync [] (.copyIn true k) := .data (.inr (.inr rfl))
  rw [hm] at hcopy
  exact .head (Backend.moves_take hparse) (.head (Backend.moves_take hbind)
    (.head (Backend.moves_take hcopy) (.single (Backend.moves_take hsync))))

def copyDone : Message := ⟨msgCopyDone, []⟩

def onLine (f : Client) (unread : List Message) (b : Backend) : Sys :=
  Sys.setLine ⟨f, unread, fun _ => .new, true⟩ 0 b

section

variable {h : Habits} {f f' : Client} {unread ms rest : List Message} {b b' : Backend} {m : Message}

theorem onLine_moves (hb : Relation.ReflTransGen (Backend.Moves h.copies) b b') :
    Moves h (onLine f unread b) (onLine f unread b') := by
  have hmoves := moves_line (h := h) (s := onLine f unread b) (c := 0) (b := b')
  simp only [onLine, Sys.lines_setLine_self, Sys.setLine_setLine] at hmoves
  exact hmoves hb

theorem onLine_read {stage : Stage} {inbox : List Message} :
    talk h 0 .read (onLine f unread ⟨stage, inbox, m :: rest⟩) (some m)
      (onLine f unread ⟨stage, inbox, rest⟩) := by
  refine ⟨_, ⟨rest, by simp [onLine], rfl⟩, ?_⟩
  simp only [onLine, Sys.lines_setLine_self, Sys.setLine_setLine]
  exact .refl

theorem onLine_toClient :
    talk h 0 (.toClient m) (onLine f unread b) true (onLine (f.receive m) unread b) :=
  ⟨_, ⟨rfl, rfl⟩, .refl⟩

theorem onLine_answer (hf : Client.Sends h (f.receive m) ms f') :
    talk h 0 (.toClient m) (onLine f unread b) true (onLine f' (unread ++ ms) b) :=
  ⟨_, ⟨rfl, rfl⟩, .single (.client hf)⟩

theorem onLine_fromClient :
    talk h 0 .fromClient (onLine f (m :: rest) b) (some m) (onLine f rest b) :=
  ⟨_, ⟨rest, rfl, rfl⟩, .refl⟩

theorem onLine_forward (hb : Relation.ReflTransGen (Backend.Moves h.copies) (b.push [m]) b') :
    talk h 0 (.forward m) (onLine f unread b) true (onLine f unread b') := by
  refine ⟨_, ⟨rfl, rfl⟩, ?_⟩
  have hmoves : Moves h (onLine f unread (b.push [m])) (onLine f unread b') := onLine_moves hb
  simpa only [onLine, Sys.lines_setLine_self, Sys.setLine_setLine] using hmoves

end

def asking (k : Nat) : Client := ⟨1, false, false, .asked true (k + 1)⟩

theorem sync_unread {h : Habits} {m : Message} {k : Nat} (hm : m.type = msgExecute)
    (hcopies : h.copies m = k + 1) :
    ∃ s p t n q u, Moves h Sys.start s ∧
    Reach (session h) (relayQueries (plainEnv false) 4 (Session.new 0 false false)) s p t ∧
      p.head = some (.relay 0) ∧ Reach (talk h 0) (Wire.relayUntilReady n) t q u ∧
      q.head = some .read ∧ Stuck 0 .read u ∧ (u.lines 0).stage = .idle ∧ u.unread = [sync] := by
  obtain ⟨type, payload⟩ := m
  obtain rfl : type = msgExecute := hm
  have hmoves : Moves h Sys.start
      ⟨asking k, [parse, bind, ⟨msgExecute, payload⟩, sync], fun _ => .new, false⟩ :=
    .head (.client (.message rfl rfl (m := parse) (by decide) nofun))
      (.head (.client (.message rfl rfl (m := bind) (by decide) nofun))
      (.head (.client (.copy rfl rfl (m := ⟨msgExecute, payload⟩) rfl hcopies))
      (.single (.client (.sync ⟨rfl, .inr ⟨rfl, _, rfl⟩⟩ (m := sync) rfl)))))
  have hstarted : Moves h (onLine (asking k) []
      (Backend.new.push [parse, bind, ⟨msgExecute, payload⟩, sync]))
      (onLine (asking k) [] ⟨.copyIn true k, [], copyReply⟩) :=
      onLine_moves (copy_started rfl hcopies)
  have hsent : Reach (session h) (relayQueries (plainEnv false) 4 (Session.new 0 false false))
      ⟨asking k, [parse, bind, ⟨msgExecute, payload⟩, sync], fun _ => .new, false⟩ _
      (onLine (asking k) [] ⟨.copyIn true k, [], copyReply⟩) :=
    .ask (some (plainInput msgParse [])) _ ⟨_, ⟨_, rfl, rfl⟩, .refl⟩
      (.ask true _ ⟨_, ⟨.inl rfl, rfl⟩, .refl⟩
    (.ask (some (plainInput msgBind [])) _ ⟨_, ⟨_, rfl, rfl⟩, .refl⟩
      (.ask true _ ⟨_, ⟨.inl rfl, rfl⟩, .refl⟩
    (.ask (some (plainInput msgExecute payload)) _ ⟨_, ⟨_, rfl, rfl⟩, .refl⟩
      (.ask true _ ⟨_, ⟨.inl rfl, rfl⟩, .refl⟩
    (.ask (some (plainInput msgSync [])) _ ⟨_, ⟨_, rfl, rfl⟩, .refl⟩
      (.ask true _ ⟨_, ⟨.inl rfl, rfl⟩, .refl⟩
    (.ask (0 : Pool) _ ⟨_, rfl, .refl⟩ (.ask (some (0 : Conn)) _ ⟨_, rfl, .refl⟩
    (.ask true _ ⟨_, ⟨rfl, _, rfl, rfl⟩, hstarted⟩ .refl))))))))))
  have hcomplete : Takes h.copies (.copyIn true k) copyDone [⟨67, []⟩] .idle :=
    .finish rfl rfl (.inl rfl)
  have hends : Client.Sends h (((asking k).receive ⟨49, []⟩).receive ⟨50,
      []⟩ |>.receive ⟨msgCopyInResponse, []⟩)
      [copyDone, sync] ⟨1, false, false, .free⟩ := .finish rfl (.inl rfl) rfl
  have hrelay : Reach (talk h 0) (Wire.relayUntilReady 5)
      (onLine (asking k) [] ⟨.copyIn true k, [], copyReply⟩) _
      (onLine ⟨1, false, false, .free⟩ [sync] ⟨.idle, [], []⟩) :=
    .ask (some ⟨49, []⟩) _ onLine_read (.ask true _ onLine_toClient
    (.ask (some ⟨50, []⟩) _ onLine_read (.ask true _ onLine_toClient
    (.ask (some ⟨msgCopyInResponse, []⟩) _ onLine_read (.ask true _ (onLine_answer hends)
    (.ask (some copyDone) _ onLine_fromClient
      (.ask true _ (onLine_forward (.single (Backend.moves_take hcomplete)))
    (.ask (some ⟨67, []⟩) _ onLine_read (.ask true _ onLine_toClient .refl)))))))))
  exact ⟨_, _, _, _, _, _, hmoves, hsent, rfl, hrelay, rfl, ⟨.inr Nat.one_pos, rfl, rfl⟩, rfl, rfl⟩

/-- No standstill just if the client neither waits behind a Flush nor starts a COPY in a batch. -/
theorem never_deadlock_iff (h : Habits) :
    (∀ (env : Env) (n : Nat) (ses : Session) (s : Sys) (p : Run Unit) (t : Sys) (o : Op),
      env.multiplexMode = false → Moves h Sys.start s →
      Reach (session h) (relayQueries env n ses) s p t →
      p.head = some o → ¬ Deadlock h o t) ↔ h.Plain := by
  constructor
  · intro hnever
    refine ⟨Bool.eq_false_iff.mpr fun hflushes => ?_, fun m hm => ?_⟩
    · obtain ⟨s, p, t, v, hmoves, hreach, hp, hwaits, hunread, -⟩ := flush_held hflushes
      exact hnever _ _ _ s p t _ rfl hmoves hreach hp ⟨hwaits, hunread⟩
    · cases hcopies : h.copies m with
      | zero => rfl
      | succ k =>
        obtain ⟨s, p, t, n, q, u, hmoves, hreach, hp, hrelay, hq, hstuck, -⟩ :=
          sync_unread hm hcopies
        exact absurd ⟨n, q, .read, u, hrelay, hq, hstuck⟩
          (hnever _ _ _ s p t _ rfl hmoves hreach hp)
  · intro hp env n ses s p t o _ hmoves hreach ho
    exact not_deadlock hp hmoves hreach ho

def flusher : Habits := ⟨true, fun _ => 0⟩

def copier : Habits := ⟨false, fun m => if m.type = msgExecute then 1 else 0⟩

theorem waits_for_ever :
    (∃ s p t v, Moves flusher Sys.start s ∧
      Reach (session flusher) (relayQueries (plainEnv false) 3 (Session.new 0 false false)) s p t ∧
      p.head = some (.recv v) ∧ t.client.Waits ∧ t.unread = [] ∧ v.extBuf = [parse, flush]) ∧
    ∃ s p t n q u, Moves copier Sys.start s ∧
      Reach (session copier) (relayQueries (plainEnv false) 4 (Session.new 0 false false)) s p t ∧
      p.head = some (.relay 0) ∧ Reach (talk copier 0) (Wire.relayUntilReady n) t q u ∧
      q.head = some .read ∧ Stuck 0 .read u ∧ (u.lines 0).stage = .idle ∧ u.unread = [sync] :=
  ⟨flush_held rfl, sync_unread (m := ⟨msgExecute, []⟩) rfl rfl⟩

end PgMux.Deadlocks
