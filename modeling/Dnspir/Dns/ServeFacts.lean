/-
What a server sends on its connections.

* `handle_served`: the replies to the complete requests, in order, up to the
  first that ends the worker, whatever the buffer of the thread holds.
* `run_interleaved`: so it is for any number of connections at a time, in any
  interleaving of their bytes and their workers, up to the panic that ends all.
* `exchange_session`: a client that waits for its replies can take every
  request of a connection for the first one.
-/
import Dnspir.Dns.Serve
import Dnspir.MemoryFacts

namespace Dnspir

open DoublePir PirWrapper

namespace Dns

/-! ## The buffer -/

section Buffer

/-- Two runs on different buffers have one result. -/
def SameResult {α : Type} (p p' : α × Array CompressedZnx8El) : Prop := p.1 = p'.1

theorem sameResult_iff {α : Type} {x y : Option (α × Array CompressedZnx8El)} :
    Option.Rel SameResult x y ↔ x.map Prod.fst = y.map Prod.fst := by
  constructor
  · intro h
    cases h with
    | some h => exact congrArg some h
    | none => rfl
  · intro h
    cases x with
    | none =>
      rw [Option.map_none, eq_comm, Option.map_eq_none_iff] at h
      rw [h]
      exact .none
    | some p =>
      cases y with
      | none => cases h
      | some p' => exact .some (Option.some.inj h)

variable {fm : FeanorMath} {t : ℕ}

theorem processQueries_rel (databases : Vector (List (PIRDatabase rank t)) batchCount)
    (queries : Vector (Option (List UInt8)) batchCount) (memory memory' : Array CompressedZnx8El) :
    Option.Rel SameResult (processQueries fm databases queries memory)
      (processQueries fm databases queries memory') := by
  unfold processQueries
  split
  next =>
    refine Loops.rel_bind (R := Eq) Loops.rel_refl fun db _ hdb => ?_
    subst hdb
    refine Loops.rel_bind (R := Eq) Loops.rel_refl fun gs _ hgs => ?_
    subst hgs
    refine Loops.rel_bind (R := Eq) Loops.rel_refl fun unpacked _ hunpacked => ?_
    subst hunpacked
    refine Loops.rel_bind (sameResult_iff.mpr
      (performBatchedDoublePir_fst (NeZero.pos rank) fm databases unpacked gs
      memory memory')) ?_
    rintro ⟨replies, m⟩ ⟨replies', m'⟩ (rfl : replies = replies')
    refine Loops.rel_bind (R := Eq) Loops.rel_refl fun bytes _ hbytes => ?_
    subst hbytes
    exact .some rfl
  next => exact .none

theorem processQuery_rel (databases : List (PIRDatabase rank t)) (query : List UInt8)
    (memory memory' : Array CompressedZnx8El) :
    Option.Rel SameResult (processQuery fm databases query memory)
      (processQuery fm databases query memory') := by
  refine Loops.rel_bind (processQueries_rel _ _ memory memory') ?_
  rintro ⟨replies, m⟩ ⟨replies', m'⟩ (rfl : replies = replies')
  refine Loops.rel_bind (R := Eq) Loops.rel_refl fun reply _ hreply => ?_
  subst hreply
  exact .some rfl

end Buffer

variable {fm : FeanorMath} {state : ServerState}

/-- **No reply depends on the buffer**, nor on the requests that filled it. -/
theorem answer_rel (req : List UInt8) (memory memory' : Array CompressedZnx8El) :
    Option.Rel SameResult (state.answer fm req memory) (state.answer fm req memory') := by
  unfold ServerState.answer
  split
  next => exact .some rfl
  next cmd body =>
    split
    next => exact .some rfl
    next =>
      split
      next =>
        cases state.pir with
        | none => exact .some rfl
        | some pir =>
          exact Loops.rel_bind (processQuery_rel pir.dbs body memory memory') fun p p' hp =>
            .some (congrArg Except.ok hp)
      next =>
        split
        next => exact .some rfl
        next => exact .some rfl

/-! ## One round -/

/-- What a request comes to: the frame that is sent back, or the end of the
worker. -/
def ServerState.outcome (fm : FeanorMath) (state : ServerState) (req : List UInt8) :
    Except Exit (List UInt8) :=
  match state.answer fm req #[] with
  | none => .error .panicked
  | some (.error e, _) => .error (.failed e)
  | some (.ok resp, _) => (writeFrame resp).mapError .failed

theorem round_of_unread {stream : List UInt8} {e : IoError} (h : (readFrame stream).1 = .error e)
    (memory : Array CompressedZnx8El) : state.round fm stream memory = .exit (readExit e) := by
  unfold ServerState.round
  split
  next e' rest hread =>
    rw [hread] at h
    rw [Except.error.inj h]
  next req rest hread =>
    rw [hread] at h
    cases h

section Request
variable {req : List UInt8} (hreq : req.length ≤ maxFrame) (rest : List UInt8)
  (memory : Array CompressedZnx8El)
include hreq

theorem round_of_outcome_error {exit : Exit} (h : state.outcome fm req = .error exit) :
    state.round fm (frameBytes req ++ rest) memory = .exit exit := by
  have hrel := @answer_rel fm state req memory #[]
  rw [ServerState.outcome] at h
  rw [ServerState.round, readFrame_frameBytes hreq]
  dsimp only
  generalize state.answer fm req memory = x at hrel ⊢
  generalize state.answer fm req #[] = y at h hrel
  cases hrel with
  | none => exact congrArg Round.exit (Except.error.inj h)
  | @some p p' hp =>
    obtain ⟨result, memory₁⟩ := p
    obtain ⟨result', memory₂⟩ := p'
    obtain rfl : result = result' := hp
    cases result with
    | error e => exact congrArg Round.exit (Except.error.inj h)
    | ok resp =>
      dsimp only at h ⊢
      cases hw : writeFrame resp with
      | error e =>
        rw [hw] at h
        exact congrArg Round.exit (Except.error.inj h)
      | ok frame =>
        rw [hw] at h
        cases h

theorem round_of_outcome_ok {frame : List UInt8} (h : state.outcome fm req = .ok frame) :
    ∃ memory', state.round fm (frameBytes req ++ rest) memory = .reply frame rest memory' := by
  have hrel := @answer_rel fm state req memory #[]
  rw [ServerState.outcome] at h
  rw [ServerState.round, readFrame_frameBytes hreq]
  dsimp only
  generalize state.answer fm req memory = x at hrel ⊢
  generalize state.answer fm req #[] = y at h hrel
  cases hrel with
  | none => cases h
  | @some p p' hp =>
    obtain ⟨result, memory₁⟩ := p
    obtain ⟨result', memory₂⟩ := p'
    obtain rfl : result = result' := hp
    cases result with
    | error e => cases h
    | ok resp =>
      dsimp only at h ⊢
      cases hw : writeFrame resp with
      | error e =>
        rw [hw] at h
        cases h
      | ok frame' =>
        rw [hw] at h
        obtain rfl := Except.ok.inj h
        exact ⟨memory₁, rfl⟩

end Request

/-! ## One connection -/

theorem handle_of_exit {conn : List UInt8} {memory : Array CompressedZnx8El} {exit : Exit}
    (h : state.round fm conn memory = .exit exit) : state.handle fm conn memory = ([], exit) := by
  rw [ServerState.handle]
  split
  next exit' h' =>
    rw [h] at h'
    rw [Round.exit.inj h']
  next h' =>
    rw [h] at h'
    cases h'

theorem handle_of_reply {conn frame rest : List UInt8} {memory memory' : Array CompressedZnx8El}
    (h : state.round fm conn memory = .reply frame rest memory') : state.handle fm conn memory =
      (frame ++ (state.handle fm rest memory').1, (state.handle fm rest memory').2) := by
  rw [ServerState.handle]
  split
  next h' =>
    rw [h] at h'
    cases h'
  next frame' rest' memory₁ h' =>
    rw [h] at h'
    obtain ⟨rfl, rfl, rfl⟩ := Round.reply.inj h'
    rfl

/-- What a connection gets for its requests, when `last` is how its worker
would end after them. -/
def transcript : List (Except Exit (List UInt8)) → Exit → List UInt8 × Exit
  | [], last => ([], last)
  | .error exit :: _, _ => ([], exit)
  | .ok frame :: outcomes, last => (frame ++ (transcript outcomes last).1, (transcript outcomes last).2)

theorem handle_frames {reqs : List (List UInt8)} (hreqs : ∀ req ∈ reqs, req.length ≤ maxFrame)
    {rest : List UInt8} {e : IoError} (hrest : (readFrame rest).1 = .error e)
    (memory : Array CompressedZnx8El) :
    state.handle fm (reqs.flatMap frameBytes ++ rest) memory =
      transcript (reqs.map (state.outcome fm)) (readExit e) := by
  induction reqs generalizing memory with
  | nil => exact handle_of_exit (round_of_unread hrest memory)
  | cons req reqs ih =>
    have hreq := hreqs req List.mem_cons_self
    rw [List.flatMap_cons, List.append_assoc, List.map_cons]
    cases ho : state.outcome fm req with
    | error exit => exact handle_of_exit (round_of_outcome_error hreq _ memory ho)
    | ok frame =>
      obtain ⟨memory', hround⟩ := round_of_outcome_ok hreq (reqs.flatMap frameBytes ++ rest) memory ho
      rw [handle_of_reply hround, ih (fun q hq => hreqs q (List.mem_cons_of_mem _ hq)), transcript]

/-- Every stream is some frames and what is not one. -/
theorem exists_frames (stream : List UInt8) :
    ∃ (reqs : List (List UInt8)) (rest : List UInt8) (e : IoError),
    stream = reqs.flatMap frameBytes ++ rest ∧ (∀ req ∈ reqs, req.length ≤ maxFrame) ∧
      (readFrame rest).1 = .error e := by
  induction hn : stream.length using Nat.strong_induction_on generalizing stream with
  | _ n ih =>
    cases hread : readFrame stream with
    | mk result rest =>
      cases result with
      | error e => exact ⟨[], stream, e, rfl, by simp, by rw [hread]⟩
      | ok req =>
        obtain ⟨rfl, hreq⟩ := readFrame_ok hread
        have hlt : rest.length < n := by
          rw [← hn, List.length_append, length_frameBytes]
          omega
        obtain ⟨reqs, rest', e, rfl, hreqs, he⟩ := ih _ hlt rest rfl
        exact ⟨req :: reqs, rest', e, by rw [List.flatMap_cons, List.append_assoc],
          List.forall_mem_cons.mpr ⟨hreq, hreqs⟩, he⟩

/-- `resp` answers `req`, whatever was asked before. -/
def ServerState.Answers (fm : FeanorMath) (state : ServerState) (req resp : List UInt8) : Prop :=
  ∀ memory, ∃ memory', state.answer fm req memory = some (.ok resp, memory')

/-- How a worker ends at a stream that it does not reply to. -/
inductive Ends (fm : FeanorMath) (state : ServerState) (rest : List UInt8) : Exit → Prop
  | cut : rest.length < 4 ∨ Bytes.ofBe (rest.take 4) ≤ maxFrame ∧
      rest.length < 4 + Bytes.ofBe (rest.take 4) →
      Ends fm state rest .closed
  | oversized : 4 ≤ rest.length → maxFrame < Bytes.ofBe (rest.take 4) →
      Ends fm state rest (.failed frameTooLarge)
  | empty {after : List UInt8} : rest = frameBytes [] ++ after →
      Ends fm state rest (.failed emptyRequest)
  | unknown {cmd : UInt8} {body after : List UInt8} : rest = frameBytes (cmd :: body) ++ after →
      cmd ∉ [cmdInfo, cmdQuery, cmdDump] → Ends fm state rest (.failed (unknownCommand cmd))
  | unsendable {req resp after : List UInt8} : rest = frameBytes req ++ after →
      state.Answers fm req resp →
      2 ^ 32 ≤ resp.length → Ends fm state rest (.failed frameTooLarge)
  | panic {body after : List UInt8} {pir : PirState} : rest = frameBytes (cmdQuery :: body) ++ after →
      state.pir = some pir → (∀ memory, processQuery fm pir.dbs body memory = none) →
        Ends fm state rest .panicked

theorem answers_of_answer {req resp : List UInt8} {memory memory' : Array CompressedZnx8El}
    (h : state.answer fm req memory = some (.ok resp, memory')) :
    state.Answers fm req resp := fun memory₁ => by
  have hrel := @answer_rel fm state req memory memory₁
  rw [h] at hrel
  generalize state.answer fm req memory₁ = y at hrel
  cases hrel with
  | @some _ p hp =>
    obtain ⟨result, memory₂⟩ := p
    exact ⟨memory₂, congrArg some (Prod.ext (Eq.symm hp) rfl)⟩

theorem answers_of_outcome {req frame : List UInt8} (h : state.outcome fm req = .ok frame) :
    ∃ resp, state.Answers fm req resp ∧ resp.length < 2 ^ 32 ∧ frame = frameBytes resp := by
  rw [ServerState.outcome] at h
  split at h
  next => cases h
  next => cases h
  next resp memory ha =>
    rw [writeFrame] at h
    split at h
    next hlt => exact ⟨resp, answers_of_answer ha, hlt, (Except.ok.inj h).symm⟩
    next => cases h

/-- Only a query can panic. -/
theorem answer_eq_none {req : List UInt8} {memory : Array CompressedZnx8El}
    (h : state.answer fm req memory = none) :
    ∃ body pir, req = cmdQuery :: body ∧ state.pir = some pir ∧
      processQuery fm pir.dbs body memory = none := by
  unfold ServerState.answer at h
  split at h
  next => cases h
  next cmd body =>
    split at h
    next => cases h
    next =>
      split at h
      next hcmd =>
        cases hp : state.pir with
        | none =>
          rw [hp] at h
          cases h
        | some pir =>
          rw [hp] at h
          refine ⟨body, pir, by rw [hcmd], rfl, Option.eq_none_iff_forall_ne_some.mpr fun p hq => ?_⟩
          have hlift : (ExceptT.lift (processQuery fm pir.dbs body) : Worker (List UInt8)) memory =
              (processQuery fm pir.dbs body memory).bind fun p => some (.ok p.1, p.2) := rfl
          rw [show (ExceptT.lift (processQuery fm pir.dbs body) : Worker (List UInt8)) memory =
            none from h, hq] at hlift
          cases hlift
      next =>
        split at h
        next => cases h
        next => cases h

/-- What is refused has no command, or one that there is not. -/
theorem answer_eq_error {req : List UInt8} {memory memory' : Array CompressedZnx8El} {e : IoError}
    (h : state.answer fm req memory = some (.error e, memory')) : (req = [] ∧ e = emptyRequest) ∨
      ∃ cmd body, req = cmd :: body ∧ cmd ∉ [cmdInfo, cmdQuery, cmdDump] ∧ e = unknownCommand cmd := by
  unfold ServerState.answer at h
  split at h
  next =>
    cases h
    exact .inl ⟨rfl, rfl⟩
  next cmd body =>
    split at h
    next => cases h
    next hinfo =>
      split at h
      next =>
        cases hp : state.pir with
        | none =>
          rw [hp] at h
          cases h
        | some pir =>
          rw [hp] at h
          obtain ⟨p, -, hq⟩ := Option.bind_eq_some_iff.mp
            (show (processQuery fm pir.dbs body memory).bind
            (fun p => some ((.ok p.1 : Except IoError (List UInt8)), p.2)) =
              some (.error e, memory') from h)
          cases hq
      next hquery =>
        split at h
        next => cases h
        next hdump =>
          cases h
          exact .inr ⟨cmd, body, rfl, by simp [hinfo, hquery, hdump], rfl⟩

theorem ends_of_outcome {req after : List UInt8} {exit : Exit}
    (h : state.outcome fm req = .error exit) :
    Ends fm state (frameBytes req ++ after) exit := by
  rw [ServerState.outcome] at h
  split at h
  next ha =>
    obtain rfl := Except.error.inj h
    obtain ⟨body, pir, rfl, hp, hq⟩ := answer_eq_none ha
    refine .panic rfl hp fun memory => Option.isNone_iff_eq_none.mp ?_
    have hsame := Loops.isSome_of_rel (@processQuery_rel fm _ pir.dbs body memory #[])
    rw [hq] at hsame
    simpa using hsame
  next e memory ha =>
    obtain rfl := Except.error.inj h
    rcases answer_eq_error ha with ⟨rfl, rfl⟩ | ⟨cmd, body, rfl, hcmd, rfl⟩
    · exact .empty rfl
    · exact .unknown rfl hcmd
  next resp memory ha =>
    rw [writeFrame] at h
    split at h
    next => cases h
    next hlt =>
      obtain rfl := Except.error.inj h
      exact .unsendable rfl (answers_of_answer ha) (by omega)

theorem ends_of_unread {rest : List UInt8} {e : IoError} (h : (readFrame rest).1 = .error e) :
    Ends fm state rest (readExit e) := by
  rcases readFrame_error h with ⟨rfl, h4, hlarge⟩ | ⟨he, hcut⟩
  · exact .oversized h4 hlarge
  · rw [readExit, if_pos he]
    exact .cut hcut

/-- The replies of a transcript, and where it ends. -/
theorem transcript_served {reqs : List (List UInt8)} (hreqs : ∀ req ∈ reqs, req.length ≤ maxFrame)
    {rest : List UInt8} {last : Exit} (hlast : Ends fm state rest last) :
    ∃ answered replies left, reqs.flatMap frameBytes ++ rest = answered.flatMap frameBytes ++ left ∧
      List.Forall₂ (fun req resp => req.length ≤ maxFrame ∧ resp.length < 2 ^ 32 ∧
        state.Answers fm req resp)
        answered replies ∧
      (transcript (reqs.map (state.outcome fm)) last).1 = replies.flatMap frameBytes ∧
      Ends fm state left (transcript (reqs.map (state.outcome fm)) last).2 := by
  induction reqs with
  | nil => exact ⟨[], [], rest, rfl, .nil, rfl, hlast⟩
  | cons req reqs ih =>
    rw [List.map_cons, List.flatMap_cons, List.append_assoc]
    cases ho : state.outcome fm req with
    | error exit => exact ⟨[], [], _, rfl, .nil, rfl, ends_of_outcome ho⟩
    | ok frame =>
      obtain ⟨resp, hresp, hlt, rfl⟩ := answers_of_outcome ho
      obtain ⟨answered, replies, left, heq, hall, hsent, hends⟩ :=
        ih fun q hq => hreqs q (List.mem_cons_of_mem _ hq)
      refine ⟨req :: answered, resp :: replies, left, ?_,
        .cons ⟨hreqs req List.mem_cons_self, hlt, hresp⟩ hall, ?_, hends⟩
      · rw [heq, List.flatMap_cons, List.append_assoc]
      · rw [transcript, hsent, List.flatMap_cons]

/-- **One connection.** Whatever a peer sends, the worker replies to the
requests in it in their order, each as if it were alone, up to the first it
does not reply to, and ends as that one says. -/
theorem handle_served (fm : FeanorMath) (state : ServerState) (conn : List UInt8)
    (memory : Array CompressedZnx8El) :
    ∃ answered replies rest, conn = answered.flatMap frameBytes ++ rest ∧
      List.Forall₂ (fun req resp => req.length ≤ maxFrame ∧ resp.length < 2 ^ 32 ∧
        state.Answers fm req resp)
        answered replies ∧
      (state.handle fm conn memory).1 = replies.flatMap frameBytes ∧
      Ends fm state rest (state.handle fm conn memory).2 := by
  obtain ⟨reqs, rest, e, rfl, hreqs, he⟩ := exists_frames conn
  rw [handle_frames hreqs he]
  exact transcript_served hreqs (ends_of_unread he)

/-! ## Many connections -/

section Interleaved

/-- Bytes that have not come yet do not change a round that does not wait. -/
theorem round_append {stream : List UInt8}
    (h : ∀ e, (readFrame stream).1 = .error e → e.kind ≠ .unexpectedEof)
    (memory : Array CompressedZnx8El) (more : List UInt8) :
    (∀ exit, state.round fm stream memory = .exit exit →
      state.round fm (stream ++ more) memory = .exit exit) ∧
      ∀ frame rest memory', state.round fm stream memory = .reply frame rest memory' →
        state.round fm (stream ++ more) memory = .reply frame (rest ++ more) memory' := by
  simp only [ServerState.round, readFrame_append h more]
  cases readFrame stream with
  | mk result rest =>
    cases result with
    | error e => exact ⟨fun _ => id, fun _ _ _ hr => by cases hr⟩
    | ok req =>
      dsimp only
      generalize state.answer fm req memory = x
      cases x with
      | none => exact ⟨fun _ => id, fun _ _ _ hr => by cases hr⟩
      | some p =>
        obtain ⟨result, memory₁⟩ := p
        cases result with
        | error e => exact ⟨fun _ => id, fun _ _ _ hr => by cases hr⟩
        | ok resp =>
          dsimp only
          cases writeFrame resp with
          | error e => exact ⟨fun _ => id, fun _ _ _ hr => by cases hr⟩
          | ok frame =>
            refine ⟨fun _ hr => (by cases hr), fun _ _ _ hr => ?_⟩
            obtain ⟨rfl, rfl, rfl⟩ := Round.reply.inj hr
            rfl

/-- A connection has got a part of what its bytes are worth, and its worker is
where the rest of it begins; `more` is what its peer can still send. -/
structure Conn.Follows (fm : FeanorMath) (state : ServerState) (conn : Conn) : Prop where
  running : conn.exit = none → ∀ more, (conn.halfClosed → more = []) →
    state.handle fm (conn.arrived ++ more) #[] =
      (conn.sent ++ conn.outgoing ++ (state.handle fm (conn.pending ++ more) conn.memory).1,
        (state.handle fm (conn.pending ++ more) conn.memory).2)
  ended : ∀ exit, conn.exit = some exit → conn.outgoing = [] ∧
    ∀ more, (conn.halfClosed → more = []) →
      state.handle fm (conn.arrived ++ more) #[] = (conn.sent, exit)

theorem accepted_follows : Conn.Follows fm state .accepted where
  running := fun _ _ _ => rfl
  ended := fun _ h => by cases h

theorem not_waits {conn : Conn} (h : conn.waits = false) (hopen : conn.halfClosed = false) :
    ∀ e, (readFrame conn.pending).1 = .error e → e.kind ≠ .unexpectedEof := by
  intro e he
  simpa [Conn.waits, hopen, he] using h

/-- The worker has nothing to do. -/
def Conn.Idle (conn : Conn) : Prop := conn.outgoing = [] ∧ conn.waits ∨ conn.exit.isSome

/-- What a turn of a worker is: nothing where it has nothing to do or is still
writing, and else a round. -/
theorem work_cases (conn : Conn) : conn.act fm state .work = conn ∧ (conn.outgoing ≠ [] ∨ conn.Idle) ∨
    conn.exit = none ∧ conn.outgoing = [] ∧ conn.waits = false ∧
      ((∃ exit, state.round fm conn.pending conn.memory = .exit exit ∧
          conn.act fm state .work = { conn with exit := some exit }) ∨
        ∃ frame rest memory, state.round fm conn.pending conn.memory = .reply frame rest memory ∧
          conn.act fm state .work =
            { conn with pending := rest, memory := memory, outgoing := frame }) := by
  rw [Conn.act]
  split
  next hrun =>
    simp only [Bool.or_eq_true, Bool.not_eq_true', List.isEmpty_eq_false_iff] at hrun
    refine .inl ⟨rfl, ?_⟩
    by_cases hout : conn.outgoing = []
    · rcases hrun with (hexit | hwriting) | hwaits
      · exact .inr (.inr hexit)
      · exact absurd hout hwriting
      · exact .inr (.inl ⟨hout, hwaits⟩)
    · exact .inl hout
  next hrun =>
    simp only [Bool.or_eq_true, not_or, Bool.not_eq_true, Option.isSome_eq_false_iff,
      Option.isNone_iff_eq_none, Bool.not_eq_false', List.isEmpty_iff] at hrun
    obtain ⟨⟨hexit, hout⟩, hwaits⟩ := hrun
    refine .inr ⟨hexit, hout, hwaits, ?_⟩
    cases state.round fm conn.pending conn.memory with
    | exit exit => exact .inl ⟨exit, rfl, rfl⟩
    | reply frame rest memory => exact .inr ⟨frame, rest, memory, rfl, rfl⟩

/-- The step lemma of a worker. -/
theorem work_follows {conn : Conn} (h : conn.Follows fm state) :
    (conn.act fm state .work).Follows fm state := by
  rcases @work_cases fm state conn with ⟨hsame, -⟩ | ⟨hexit, hout, hwaits, hstep⟩
  · rwa [hsame]
  · -- Either nothing more can come, or what comes does not change this round.
    have hmore : ∀ more, (conn.halfClosed → more = []) →
        (∀ exit, state.round fm conn.pending conn.memory = .exit exit →
          state.round fm (conn.pending ++ more) conn.memory = .exit exit) ∧
        ∀ frame rest memory', state.round fm conn.pending conn.memory = .reply frame rest memory' →
          state.round fm (conn.pending ++ more) conn.memory = .reply frame (rest ++ more) memory' := by
      intro more hm
      cases hc : conn.halfClosed with
      | true =>
        obtain rfl := hm hc
        simp only [List.append_nil]
        exact ⟨fun _ => id, fun _ _ _ => id⟩
      | false => exact round_append (not_waits hwaits hc) conn.memory more
    rcases hstep with ⟨exit, hround, hact⟩ | ⟨frame, rest, memory', hround, hact⟩
    · rw [hact]
      refine ⟨fun hnone => (by cases hnone), fun exit' he => ⟨hout, fun more hm => ?_⟩⟩
      obtain rfl := Option.some.inj he
      rw [h.running hexit more hm, handle_of_exit ((hmore more hm).1 exit hround), hout,
        List.append_nil, List.append_nil]
    · rw [hact]
      refine ⟨fun _ more hm => ?_, fun exit he => absurd (he.symm.trans hexit) (by simp)⟩
      rw [h.running hexit more hm, handle_of_reply ((hmore more hm).2 frame rest memory' hround), hout]
      simp only [List.append_nil, List.append_assoc]

theorem act_follows {conn : Conn} (h : conn.Follows fm state) (event : ConnEvent) :
    (conn.act fm state event).Follows fm state := by
  cases event with
  | arrive bytes =>
    rw [Conn.act]
    split
    next => exact h
    next hopen =>
      have hm : ∀ more : List UInt8, conn.halfClosed = true → bytes ++ more = [] :=
        fun _ hc => absurd hc hopen
      refine ⟨fun hexit more _ => ?_, fun exit he => ⟨(h.ended exit he).1, fun more _ => ?_⟩⟩
      · simpa only [List.append_assoc] using h.running hexit _ (hm more)
      · rw [List.append_assoc]
        exact (h.ended exit he).2 _ (hm more)
  | halfClose =>
    refine ⟨fun hexit more hm => ?_, fun exit he => ⟨(h.ended exit he).1, fun more hm => ?_⟩⟩
    · obtain rfl := hm rfl
      exact h.running hexit [] fun _ => rfl
    · obtain rfl := hm rfl
      exact (h.ended exit he).2 [] fun _ => rfl
  | work => exact work_follows h
  | write count =>
    refine ⟨fun hexit more hm => ?_, fun exit he => ?_⟩
    · have hbytes : (conn.act fm state (.write count)).sent ++
          (conn.act fm state (.write count)).outgoing =
          conn.sent ++ conn.outgoing := by rw [Conn.act, List.append_assoc, List.take_append_drop]
      rw [hbytes]
      exact h.running hexit more hm
    · obtain ⟨hout, hall⟩ := h.ended exit he
      simp only [Conn.act, hout, List.drop_nil, List.take_nil, List.append_nil]
      exact ⟨trivial, hall⟩

/-- What a connection has got. -/
structure Conn.Served (fm : FeanorMath) (state : ServerState) (conn : Conn) : Prop where
  sent_prefix : conn.sent <+: (state.handle fm conn.arrived #[]).1
  sent_of_idle : conn.Idle → conn.sent = (state.handle fm conn.arrived #[]).1
  ended : ∀ exit, conn.exit = some exit → ∀ more, (conn.halfClosed → more = []) →
    state.handle fm (conn.arrived ++ more) #[] = (conn.sent, exit)

/-- What an idle worker has made of its bytes. -/
theorem Conn.Follows.handle_of_idle {conn : Conn} (h : conn.Follows fm state) (hidle : conn.Idle) :
    state.handle fm conn.arrived #[] = (conn.sent, conn.exit.getD .closed) := by
  cases hexit : conn.exit with
  | some exit => simpa using (h.ended exit hexit).2 [] fun _ => rfl
  | none =>
    have hrun := h.running hexit [] fun _ => rfl
    rw [List.append_nil, List.append_nil] at hrun
    rcases hidle with ⟨hout, hw⟩ | hs
    · rw [Conn.waits, Bool.and_eq_true] at hw
      cases hread : (readFrame conn.pending).1 with
      | ok req =>
        rw [hread] at hw
        cases hw.2
      | error e =>
        rw [hread] at hw
        rw [hrun, handle_of_exit (round_of_unread hread conn.memory), hout, List.append_nil,
          List.append_nil, readExit, if_pos (of_decide_eq_true hw.2)]
        rfl
    · rw [hexit] at hs
      cases hs

theorem Conn.Follows.served {conn : Conn} (h : conn.Follows fm state) : conn.Served fm state where
  sent_prefix := by
    cases hexit : conn.exit with
    | some exit => rw [h.handle_of_idle (.inr (by rw [hexit]; rfl))]
    | none =>
      have hrun := h.running hexit [] fun _ => rfl
      rw [List.append_nil] at hrun
      rw [hrun, List.append_assoc]
      exact List.prefix_append _ _
  sent_of_idle := fun hidle => by rw [h.handle_of_idle hidle]
  ended := fun exit hexit => (h.ended exit hexit).2

/-- What a worker does with nothing coming in. -/
def ConnEvent.IsTurn : ConnEvent → Prop
  | .work => True
  | .write _ => True
  | _ => False

theorem turn_arrived {event : ConnEvent} (h : event.IsTurn) (conn : Conn) :
    (conn.act fm state event).arrived = conn.arrived := by
  cases event with
  | arrive => cases h
  | halfClose => cases h
  | work =>
    rcases @work_cases fm state conn with ⟨hsame, -⟩ | ⟨-, -, -, ⟨_, -, hact⟩ | ⟨_, _, _, -, hact⟩⟩
    · rw [hsame]
    · rw [hact]
    · rw [hact]
  | write => rfl

/-- A worker that has turns enough, and can write, has nothing left to do. -/
theorem exists_idle (conn : Conn) : ∃ turns : List ConnEvent, (∀ event ∈ turns, event.IsTurn) ∧
    (turns.foldl (Conn.act fm state) conn).Idle := by
  induction hlen : conn.pending.length using Nat.strong_induction_on generalizing conn with
  | _ len ih =>
    have hturns : ∀ event ∈ [ConnEvent.write conn.outgoing.length, .work], event.IsTurn :=
      by simp [ConnEvent.IsTurn]
    set written := conn.act fm state (.write conn.outgoing.length) with hwritten
    have hout : written.outgoing = [] := by simp [hwritten, Conn.act]
    have hpending : written.pending = conn.pending := rfl
    rcases @work_cases fm state written
      with ⟨-, hidle⟩ | ⟨-, -, -, ⟨exit, -, hact⟩ | ⟨frame, rest, memory, hround, hact⟩⟩
    · exact ⟨[.write conn.outgoing.length], by simp [ConnEvent.IsTurn],
        hidle.resolve_left (not_not.mpr hout)⟩
    · exact ⟨_, hturns, .inr (by simp only [List.foldl_cons, List.foldl_nil, ← hwritten, hact]; rfl)⟩
    · have hlt : rest.length < len := hlen ▸ hpending ▸ ServerState.round_rest hround
      obtain ⟨turns, hall, hdone⟩ :=
        ih _ hlt { written with pending := rest, memory := memory, outgoing := frame } rfl
      refine ⟨.write conn.outgoing.length :: .work :: turns, ?_, ?_⟩
      · exact List.forall_mem_cons.mpr ⟨trivial, List.forall_mem_cons.mpr ⟨trivial, hall⟩⟩
      · rwa [List.foldl_cons, List.foldl_cons, ← hwritten, hact]

theorem run_follows (fm : FeanorMath) (state : ServerState) (events : List (ℕ × ConnEvent)) (i : ℕ) :
    ((state.run fm events).machine i).Follows fm state :=
  Interleave.Family.run_inv (P := Conn.Follows fm state)
    (fun _ event _ _ h => act_follows h event.2) accepted_follows

theorem run_halted_iff (fm : FeanorMath) (state : ServerState) (events : List (ℕ × ConnEvent)) :
    (state.run fm events).halted ↔ ∃ i, ((state.run fm events).machine i).exit = some .panicked := by
  have h := @Interleave.Family.halted_iff _ _ _ _ (Conn.act fm state) Conn.panicked
    ⟨fun _ => .accepted, false⟩ events
    ⟨fun hf => (by cases hf), fun ⟨_, hi⟩ => (by cases hi)⟩
  exact h.trans (exists_congr fun i => decide_eq_true_iff)

/-- The turns of one worker that leave it nothing to do, or end the process; they
do where its bytes make it panic. -/
theorem exists_turns (fm : FeanorMath) (state : ServerState) (events : List (ℕ × ConnEvent)) (i : ℕ) :
    ∃ turns : List ConnEvent, (∀ event ∈ turns, event.IsTurn) ∧
      ((state.run fm (events ++ turns.map (i, ·))).machine i).arrived =
        ((state.run fm events).machine i).arrived ∧
      ((state.run fm (events ++ turns.map (i, ·))).halted ∨
        ((state.run fm (events ++ turns.map (i, ·))).machine i).Idle) ∧
      ((state.handle fm ((state.run fm events).machine i).arrived #[]).2 = .panicked →
        (state.run fm (events ++ turns.map (i, ·))).halted) := by
  obtain ⟨turns, hturns, hidle⟩ := @exists_idle fm state ((state.run fm events).machine i)
  have hmore : state.run fm (events ++ turns.map (i, ·)) =
      (state.run fm events).run (Conn.act fm state) Conn.panicked (turns.map (i, ·)) :=
        Interleave.Family.run_append ..
  have harrived : ((state.run fm (events ++ turns.map (i, ·))).machine i).arrived =
      ((state.run fm events).machine i).arrived := by
    rw [hmore]
    refine Interleave.Family.run_inv
      (P := fun conn : Conn => conn.arrived = ((state.run fm events).machine i).arrived)
      (fun conn event he _ hconn => ?_) rfl
    obtain ⟨turn, hturn, rfl⟩ := List.mem_map.mp he
    rw [turn_arrived (hturns turn hturn), hconn]
  have hdone : (state.run fm (events ++ turns.map (i, ·))).halted ∨
      ((state.run fm (events ++ turns.map (i, ·))).machine i).Idle :=
          or_iff_not_imp_left.mpr fun hrun => by
    rw [hmore] at hrun ⊢
    rw [Interleave.Family.run_own i turns (Bool.eq_false_of_not_eq_true hrun)]
    exact hidle
  refine ⟨turns, hturns, harrived, hdone, fun hpanic => hdone.elim id fun hidle => ?_⟩
  -- What an idle worker has ended with is what its bytes say.
  have hhandle := (run_follows fm state _ i).handle_of_idle hidle
  rw [harrived] at hhandle
  rw [hhandle] at hpanic
  refine (run_halted_iff fm state _).mpr ⟨i, ?_⟩
  cases hexit : ((state.run fm (events ++ turns.map (i, ·))).machine i).exit with
  | none =>
    rw [hexit] at hpanic
    cases hpanic
  | some exit =>
    rw [hexit] at hpanic
    exact congrArg some hpanic

/-- **Many connections**, in any interleaving of what comes in, of the workers
and of what the sockets take, in a process that a panic ends. What a connection
has got is a prefix of what its bytes alone are worth, and all of it once its
worker has nothing to do. A worker that has turns enough has nothing left to do
unless the process ends before, as it does if its own bytes make it panic. After
a panic nothing happens any more on any connection. -/
theorem run_interleaved (fm : FeanorMath) (state : ServerState) (events : List (ℕ × ConnEvent)) :
    (∀ i, ((state.run fm events).machine i).Served fm state) ∧
    (∀ i, ∃ turns : List ConnEvent, (∀ event ∈ turns, event.IsTurn) ∧
      ((state.run fm (events ++ turns.map (i, ·))).machine i).arrived =
        ((state.run fm events).machine i).arrived ∧
      ((state.run fm (events ++ turns.map (i, ·))).halted ∨
        ((state.run fm (events ++ turns.map (i, ·))).machine i).Idle) ∧
      ((state.handle fm ((state.run fm events).machine i).arrived #[]).2 = .panicked →
        (state.run fm (events ++ turns.map (i, ·))).halted)) ∧
    ((state.run fm events).halted ↔ ∃ i, ((state.run fm events).machine i).exit = some .panicked) ∧
    ((state.run fm events).halted → ∀ more, state.run fm (events ++ more) = state.run fm events) := by
  refine ⟨fun i => (run_follows fm state events i).served, exists_turns fm state events,
    run_halted_iff fm state events, fun h more => ?_⟩
  rw [ServerState.run, Interleave.Family.run_append]
  exact Interleave.Family.run_of_halted h

end Interleaved

/-! ## A client that waits -/

section Session

theorem ofBe_frameHeader {payload : List UInt8} (h : payload.length < 2 ^ 32) :
    Bytes.ofBe (Bytes.toBe 4 payload.length) = payload.length := by
  rw [Bytes.ofBe_toBe]
  exact Nat.mod_eq_of_lt (h.trans_eq (by norm_num))

/-- What is read where a frame begins, whatever follows it. -/
theorem readFrame_frame {payload : List UInt8} (h : payload.length < 2 ^ 32) (rest : List UInt8) :
    (readFrame (frameBytes payload ++ rest)).1 =
      if payload.length ≤ maxFrame then .ok payload else .error frameTooLarge := by
  split
  next hle => rw [readFrame_frameBytes hle]
  next hlarge =>
    rw [frameBytes, List.append_assoc, readFrame_header (Bytes.length_toBe 4 _), ofBe_frameHeader h,
      if_pos (by omega)]

theorem handle_outcome {req : List UInt8} (hreq : req.length ≤ maxFrame) (later : List UInt8)
    (memory : Array CompressedZnx8El) :
    (∀ exit, state.outcome fm req = .error exit →
      state.handle fm (frameBytes req ++ later) memory = ([], exit)) ∧
      ∀ frame, state.outcome fm req = .ok frame →
        ∃ memory', state.handle fm (frameBytes req ++ later) memory =
        (frame ++ (state.handle fm later memory').1, (state.handle fm later memory').2) := by
  refine ⟨fun exit h => handle_of_exit (round_of_outcome_error hreq later memory h), fun frame h => ?_⟩
  obtain ⟨memory', hround⟩ := round_of_outcome_ok hreq later memory h
  exact ⟨memory', handle_of_reply hround⟩

/-- The first reply is that of the request alone. -/
theorem readFrame_handle {req : List UInt8} (hreq : req.length < 2 ^ 32) (later : List UInt8)
    (memory : Array CompressedZnx8El) :
    (readFrame (state.handle fm (frameBytes req ++ later) memory).1).1 = state.exchange fm req := by
  have hex : state.exchange fm req = (readFrame (state.handle fm (frameBytes req ++ []) #[]).1).1 := by
    rw [ServerState.exchange, writeFrame, if_pos hreq, List.append_nil]
    rfl
  rw [hex]
  by_cases hle : req.length ≤ maxFrame
  · cases ho : state.outcome fm req with
    | error exit =>
      rw [(handle_outcome hle later memory).1 exit ho, (handle_outcome hle [] #[]).1 exit ho]
    | ok frame =>
      obtain ⟨resp, -, hresp, rfl⟩ := answers_of_outcome ho
      obtain ⟨m, hm⟩ := (handle_outcome hle later memory).2 _ ho
      obtain ⟨m', hm'⟩ := (handle_outcome hle [] #[]).2 _ ho
      rw [hm, hm', readFrame_frame hresp, readFrame_frame hresp]
  · have hrefused : ∀ later memory, state.handle fm (frameBytes req ++ later) memory =
        ([], readExit frameTooLarge) :=
      fun later memory => handle_of_exit
        (round_of_unread (by rw [readFrame_frame hreq, if_neg hle]) memory)
    rw [hrefused, hrefused]

theorem outcome_of_exchange {req resp : List UInt8} (h : state.exchange fm req = .ok resp) :
    req.length ≤ maxFrame ∧ resp.length ≤ maxFrame ∧ state.outcome fm req = .ok (frameBytes resp) := by
  have hreq : req.length < 2 ^ 32 := by
    by_contra hlarge
    rw [ServerState.exchange, writeFrame, if_neg hlarge] at h
    cases h
  have hread := @readFrame_handle fm state req hreq [] #[]
  rw [h] at hread
  have hempty : (readFrame ([] : List UInt8)).1 ≠ .ok resp := fun he => by
    obtain ⟨e, he'⟩ := @readFrame_short [] (by decide)
    rw [he'] at he
    cases he
  have hle : req.length ≤ maxFrame := by
    by_contra hlarge
    rw [handle_of_exit (round_of_unread (by rw [readFrame_frame hreq, if_neg hlarge]) #[])] at hread
    exact hempty hread
  cases ho : state.outcome fm req with
  | error exit =>
    rw [(handle_outcome hle [] #[]).1 exit ho] at hread
    exact absurd hread hempty
  | ok frame =>
    obtain ⟨resp', -, hlt, rfl⟩ := answers_of_outcome ho
    obtain ⟨m, hm⟩ := (handle_outcome hle [] #[]).2 _ ho
    rw [hm, readFrame_frame hlt] at hread
    split at hread
    next hle' =>
      obtain rfl := Except.ok.inj hread
      exact ⟨hle, hle', rfl⟩
    next => cases hread

/-- **A session.** On a connection whose earlier requests were answered, the
next one is answered as on a connection of its own, whatever follows it. -/
theorem exchange_session {reqs replies : List (List UInt8)}
    (h : List.Forall₂ (fun req resp => state.exchange fm req = .ok resp) reqs replies)
    {req : List UInt8} (hreq : req.length < 2 ^ 32) (later : List UInt8)
    (memory : Array CompressedZnx8El) :
    ∃ rest, readFrames reqs.length
      (state.handle fm (reqs.flatMap frameBytes ++ (frameBytes req ++ later)) memory).1 =
      (.ok replies, rest) ∧ (readFrame rest).1 = state.exchange fm req := by
  induction h generalizing memory with
  | nil => exact ⟨_, rfl, readFrame_handle hreq later memory⟩
  | @cons first resp reqs replies hfirst _ ih =>
    obtain ⟨hle, hresp, ho⟩ := outcome_of_exchange hfirst
    obtain ⟨m, hm⟩ := (handle_outcome hle
      (reqs.flatMap frameBytes ++ (frameBytes req ++ later)) memory).2 _ ho
    obtain ⟨rest, hread, hnext⟩ := ih m
    refine ⟨rest, ?_, hnext⟩
    rw [List.flatMap_cons, List.append_assoc, hm, List.length_cons]
    have hframe := readFrame_frameBytes hresp
      (state.handle fm (reqs.flatMap frameBytes ++ (frameBytes req ++ later)) m).1
    simp only [readFrames, Bind.bind, ExceptT.bind, ExceptT.mk, ExceptT.bindCont, StateT.bind,
      hframe, hread]
    rfl

theorem outcome_of_answers {req resp : List UInt8} (h : state.Answers fm req resp)
    (hresp : resp.length ≤ maxFrame) :
    state.outcome fm req = .ok (frameBytes resp) := by
  obtain ⟨memory', ha⟩ := h #[]
  rw [ServerState.outcome, ha]
  simp only [writeFrame_eq hresp]
  rfl

theorem exchange_of_answers {req resp : List UInt8} (h : state.Answers fm req resp)
    (hreq : req.length ≤ maxFrame) (hresp : resp.length ≤ maxFrame) :
    state.exchange fm req = .ok resp := by
  have hlt : ∀ payload : List UInt8, payload.length ≤ maxFrame → payload.length < 2 ^ 32 :=
    fun _ hle => hle.trans_lt (by decide)
  obtain ⟨m, hm⟩ := (handle_outcome hreq [] #[]).2 _ (outcome_of_answers h hresp)
  rw [← readFrame_handle (hlt req hreq) [] #[], hm, readFrame_frame (hlt resp hresp), if_pos hresp]

theorem answers_info : state.Answers fm [cmdInfo] (encodeInfo state.info) := fun memory => ⟨memory, rfl⟩

theorem answers_dump : state.Answers fm [cmdDump] (state.dump.getD respUnavailable) :=
  fun memory => ⟨memory, rfl⟩

/-- A server of a dump of two bytes. -/
def twoByteDump : ServerState := ⟨"org".toList, none, some [31, 139], 0⟩

theorem exchange_session_dump : ∃ rest, readFrames 1 (twoByteDump.handle FeanorMath.reference
      (([[cmdInfo]] : List (List UInt8)).flatMap frameBytes ++ (frameBytes [cmdDump] ++ [])) #[]).1 =
        (.ok [encodeInfo twoByteDump.info], rest) ∧
      (readFrame rest).1 = twoByteDump.exchange FeanorMath.reference [cmdDump] :=
  exchange_session (.cons (exchange_of_answers answers_info (by decide) (by decide)) .nil)
    (by decide) [] #[]

end Session

end Dns

end Dnspir
