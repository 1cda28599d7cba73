/-
Iterative resolution (`client::resolve_iteratively`).

The reference works on lists in the order they are given: of each list the
first candidate that connects is asked, and a delegation replaces the list.

* `connectNext_reverse`: the pops from the stack are the reference's choice.
* `resolveIteratively_eq`: the loop is the reference.
-/
import Dnspir.Dns.HopFacts

namespace Dnspir

namespace Dns

/-! ## The reference -/

/-- A result without its text. -/
inductive Outcome
  | found (recs : List Record)
  | notFound
  | failed

def ResolutionResult.outcome : ResolutionResult → Outcome
  | .found recs => .found recs
  | .notFound => .notFound
  | .failed _ => .failed

/-- An address that was contacted, and whether it connected. -/
abbrev Contact := SocketAddr × Bool

def ResolutionEvent.contact : ResolutionEvent → Option Contact
  | .connectFailed addr _ => some (addr, false)
  | .hopStart _ addr _ => some (addr, true)
  | .delegation _ _ => none

/-- Who was contacted, in order. -/
def contacts (events : List ResolutionEvent) : List Contact := events.filterMap ResolutionEvent.contact

/-- The first candidate that connects, after those before it have failed. -/
def firstReachable (factory : DnsServerFactory) : List SocketAddr → List Contact × Option DnsServer
  | [] => ([], none)
  | addr :: rest =>
    match factory addr with
    | .ok server => ([(addr, true)], some server)
    | .error _ => ((addr, false) :: (firstReachable factory rest).1, (firstReachable factory rest).2)

/-- A resolution in at most the given number of hops, and who is contacted. -/
def resolveWithin (factory : DnsServerFactory) (target : Name) :
    ℕ → List SocketAddr → Outcome × List Contact
  | 0, _ => (.failed, [])
  | hops + 1, candidates =>
    match firstReachable factory candidates with
    | (contacts, none) => (.failed, contacts)
    | (contacts, some server) =>
      match oneHop server target with
      | .ok (.answer recs) => (.found recs, contacts)
      | .ok (.delegation _ nsIps) =>
        let next := resolveWithin factory target hops (nsIps.map fun ip => ⟨ip, defaultPort⟩)
        (next.1, contacts ++ next.2)
      | .ok .notFound => (.notFound, contacts)
      | .ok .outOfZone => (.failed, contacts)
      | .error _ => (.failed, contacts)

/-! ## The stack -/

section Resolve
variable {factory : DnsServerFactory} {target : Name}

theorem pop_reverse_cons {α : Type} (x : α) (l : List α) :
    pop (x :: l).reverse = some (x, l.reverse) := by
  rw [pop, List.reverse_cons, List.getLast?_concat, List.dropLast_concat]
  rfl

/-- The pops from the back of the stack take the list in its order. -/
theorem connectNext_reverse (factory : DnsServerFactory) (candidates : List SocketAddr)
    (triedTotal : ℕ) :
    ∃ serverAndAddr rest tried events,
      connectNext factory candidates.reverse triedTotal = (serverAndAddr, rest, tried, events) ∧
      (firstReachable factory candidates).2 = serverAndAddr.map Prod.snd ∧
      (firstReachable factory candidates).1 =
        events.filterMap ResolutionEvent.contact ++
          (serverAndAddr.map fun p => (p.1, true)).toList := by
  induction candidates generalizing triedTotal with
  | nil =>
    refine ⟨none, [], triedTotal, [], ?_, rfl, rfl⟩
    rw [connectNext]
    rfl
  | cons addr candidates ih =>
    rw [connectNext]
    split
    next h =>
      rw [pop_reverse_cons] at h
      cases h
    next h =>
      rw [pop_reverse_cons] at h
      cases h
      rw [firstReachable]
      cases hc : factory addr with
      | ok server => exact ⟨_, _, _, _, rfl, rfl, rfl⟩
      | error e =>
        obtain ⟨serverAndAddr, rest, tried, events, hnext, hserver, hcontacts⟩ := ih (triedTotal + 1)
        simp only [hnext]
        refine ⟨_, _, _, _, rfl, hserver, ?_⟩
        rw [hcontacts]
        rfl

/-- **The loop** with hops left is the reference. -/
theorem resolveFrom_reverse (factory : DnsServerFactory) (target : Name) {left hops : ℕ}
    (h : hops + left = maxHops) (candidates : List SocketAddr) (triedTotal : ℕ) :
    (resolveFrom factory target candidates.reverse triedTotal hops).1.outcome =
        (resolveWithin factory target left candidates).1 ∧
      (resolveFrom factory target candidates.reverse triedTotal hops).2.filterMap ResolutionEvent.contact =
        (resolveWithin factory target left candidates).2 := by
  induction left generalizing hops candidates triedTotal with
  | zero =>
    rw [resolveFrom]
    split
    next => exact ⟨rfl, rfl⟩
    next => rw [if_pos (by omega)]; exact ⟨rfl, rfl⟩
  | succ left ih =>
    rw [resolveFrom, resolveWithin]
    cases candidates with
    | nil => exact ⟨rfl, rfl⟩
    | cons addr candidates =>
      rw [if_neg (by simp), if_neg (by omega)]
      obtain ⟨serverAndAddr, rest, tried, events, hnext, hserver, hcontacts⟩ :=
        connectNext_reverse factory (addr :: candidates) triedTotal
      have hfirst : firstReachable factory (addr :: candidates) = (_, _) := Prod.ext hcontacts hserver
      rw [hfirst]
      simp only [hnext]
      cases serverAndAddr with
      | none => exact ⟨rfl, (List.append_nil _).symm⟩
      | some p =>
        obtain ⟨addr', server⟩ := p
        simp only [Option.map_some]
        have hevents : (events ++ [ResolutionEvent.hopStart (hops + 1) addr' server.zoneName]).filterMap
            ResolutionEvent.contact = events.filterMap ResolutionEvent.contact ++ [(addr', true)] := by
          rw [List.filterMap_append]
          rfl
        cases hhop : oneHop server target with
        | error e => exact ⟨rfl, hevents⟩
        | ok outcome =>
          cases outcome with
          | answer recs => exact ⟨rfl, hevents⟩
          | notFound => exact ⟨rfl, hevents⟩
          | outOfZone => exact ⟨rfl, hevents⟩
          | delegation source nsIps =>
            have hleft : hops + 1 + left = maxHops := by omega
            obtain ⟨ho, hcs⟩ := ih hleft (nsIps.map fun ip => ⟨ip, defaultPort⟩) tried
            simp only [List.map_reverse]
            refine ⟨ho, ?_⟩
            rw [List.filterMap_append, hevents, ← hcs]
            rfl

/-! ## What the reference returns -/

/-- At most one candidate of a list connects, and it is the last contacted. -/
theorem firstReachable_connected {candidates : List SocketAddr} {contacts : List Contact}
    {server? : Option DnsServer} (h : firstReachable factory candidates = (contacts, server?)) :
    (contacts.filter Prod.snd).length = server?.toList.length ∧
      ∀ server, server? = some server → ∃ addr, contacts.getLast? = some (addr, true) ∧
        factory addr = .ok server := by
  induction candidates generalizing contacts with
  | nil =>
    cases h
    exact ⟨rfl, fun server hs => by cases hs⟩
  | cons addr candidates ih =>
    rw [firstReachable] at h
    split at h
    next server hc =>
      cases h
      exact ⟨rfl, fun server' hs => by cases hs; exact ⟨addr, rfl, hc⟩⟩
    next =>
      cases h
      obtain ⟨hlen, hlast⟩ := ih rfl
      refine ⟨by simpa using hlen, fun server hs => ?_⟩
      obtain ⟨addr', hl, hc⟩ := hlast server hs
      exact ⟨addr', by rw [List.getLast?_cons, hl]; rfl, hc⟩

/-- The server that was contacted last answers for the target. -/
def LastAnswers (factory : DnsServerFactory) (target : Name) (contacts : List Contact)
    (records : List Record) : Prop :=
  ∃ addr server, contacts.getLast? = some (addr, true) ∧ factory addr = .ok server ∧
    server.query target = .ok records

theorem hopFrom_answer {server : DnsServer} {name : Name} {recs : List Record}
    (h : hopFrom server target name = .ok (.answer recs)) :
    ∃ records, server.query target = .ok records ∧ recs = records.filter Record.isAddress ∧
      recs ≠ [] := by
  induction hlen : name.length using Nat.strongRecOn generalizing name with
  | ind n ih =>
    rw [hopFrom] at h
    split at h
    next => cases h
    next records hrec =>
      simp only at h
      split at h
      next hanswer =>
        cases h
        exact ⟨records, hanswer.1 ▸ hrec, rfl, hanswer.2⟩
      next =>
        split at h
        next => cases h
        next =>
          split at h
          next => cases h
          next =>
            split at h
            next rest hstrip => exact ih _ (hlen ▸ stripLeftmost_length hstrip) h rfl
            next => cases h

theorem oneHop_answer {server : DnsServer} {recs : List Record}
    (h : oneHop server target = .ok (.answer recs)) :
    ∃ records, server.query target = .ok records ∧ recs = records.filter Record.isAddress ∧
      recs ≠ [] := by
  rw [oneHop] at h
  split at h
  next => cases h
  next => exact hopFrom_answer h

theorem oneHop_notFound {server : DnsServer} (h : oneHop server target = .ok .notFound) :
    ∃ records, server.query target = .ok records := by
  rw [oneHop] at h
  split at h
  next => cases h
  next =>
    rw [hopFrom] at h
    split at h
    next => cases h
    next records hrec => exact ⟨records, hrec⟩

/-- What an outcome shows of the server that was asked last. -/
structure ShownBy (factory : DnsServerFactory) (target : Name) (outcome : Outcome)
    (contacts : List Contact) : Prop where
  found : ∀ recs, outcome = .found recs → recs ≠ [] ∧
    ∃ records, LastAnswers factory target contacts records ∧ recs = records.filter Record.isAddress
  notFound : outcome = .notFound → ∃ records, LastAnswers factory target contacts records

theorem shownBy_failed (contacts : List Contact) : ShownBy factory target .failed contacts where
  found recs h := by cases h
  notFound h := by cases h

/-- Earlier contacts do not matter. -/
theorem ShownBy.append {outcome : Outcome} {contacts : List Contact}
    (h : ShownBy factory target outcome contacts) (earlier : List Contact) :
    ShownBy factory target outcome (earlier ++ contacts) := by
  have hlast : ∀ {records}, LastAnswers factory target contacts records →
      LastAnswers factory target (earlier ++ contacts) records := by
    rintro records ⟨addr, server, hl, h⟩
    exact ⟨addr, server, by rw [List.getLast?_append, hl]; rfl, h⟩
  refine ⟨fun recs he => ?_, fun he => ?_⟩
  · obtain ⟨hne, records, hla, hrecs⟩ := h.found recs he
    exact ⟨hne, records, hlast hla, hrecs⟩
  · obtain ⟨records, hla⟩ := h.notFound he
    exact ⟨records, hlast hla⟩

/-- What a resolution shows of the servers it asked, of which there is at most
one for each hop. -/
theorem resolveWithin_spec (factory : DnsServerFactory) (target : Name) (hops : ℕ)
    (candidates : List SocketAddr) :
    ((resolveWithin factory target hops candidates).2.filter Prod.snd).length ≤ hops ∧
      ShownBy factory target (resolveWithin factory target hops candidates).1
        (resolveWithin factory target hops candidates).2 := by
  induction hops generalizing candidates with
  | zero => exact ⟨le_rfl, shownBy_failed []⟩
  | succ hops ih =>
    rw [resolveWithin]
    cases hfirst : firstReachable factory candidates with
    | mk contacts server? =>
      obtain ⟨hlen, hlast⟩ := firstReachable_connected hfirst
      cases server? with
      | none => exact ⟨by simp [hlen], shownBy_failed contacts⟩
      | some server =>
        obtain ⟨addr, hl, hc⟩ := hlast server rfl
        have hone : (contacts.filter Prod.snd).length ≤ hops + 1 := by simp [hlen]
        simp only
        cases hhop : oneHop server target with
        | error e => exact ⟨hone, shownBy_failed contacts⟩
        | ok outcome =>
          cases outcome with
          | answer recs =>
            obtain ⟨records, hq, hrecs, hne⟩ := oneHop_answer hhop
            refine ⟨hone, fun recs' he => ?_, fun he => by cases he⟩
            cases he
            exact ⟨hne, records, ⟨addr, server, hl, hc, hq⟩, hrecs⟩
          | delegation source nsIps =>
            obtain ⟨hle, hshown⟩ := ih (nsIps.map fun ip => ⟨ip, defaultPort⟩)
            refine ⟨?_, hshown.append contacts⟩
            rw [List.filter_append, List.length_append, hlen, Nat.add_comm]
            exact Nat.succ_le_succ hle
          | notFound =>
            obtain ⟨records, hq⟩ := oneHop_notFound hhop
            exact ⟨hone, fun recs he => (by cases he), fun _ => ⟨records, addr, server, hl, hc, hq⟩⟩
          | outOfZone => exact ⟨hone, shownBy_failed contacts⟩

end Resolve

/-- **Iterative resolution** is the reference within 16 hops, for every target,
every list of candidates and every factory; and what it returns was said by the
server that was contacted last. -/
theorem resolveIteratively_eq (target : Name) (initialCandidates : List SocketAddr)
    (factory : DnsServerFactory) :
    ((resolveIteratively target initialCandidates factory).1.outcome,
        contacts (resolveIteratively target initialCandidates factory).2) =
      (if canonical target = [] then (.failed, [])
        else resolveWithin factory (canonical target) 16 initialCandidates) ∧
      ((contacts (resolveIteratively target initialCandidates factory).2).filter Prod.snd).length ≤ 16 ∧
      ShownBy factory (canonical target) (resolveIteratively target initialCandidates factory).1.outcome
        (contacts (resolveIteratively target initialCandidates factory).2) := by
  have heq : ((resolveIteratively target initialCandidates factory).1.outcome,
      contacts (resolveIteratively target initialCandidates factory).2) =
        (if canonical target = [] then (.failed, [])
        else resolveWithin factory (canonical target) 16 initialCandidates) := by
    rw [resolveIteratively]
    simp only [List.isEmpty_iff]
    split
    next => rfl
    next =>
      split
      next hnil => rw [hnil]; rfl
      next =>
        obtain ⟨ho, hcs⟩ := resolveFrom_reverse factory (canonical target)
          (Nat.zero_add maxHops) initialCandidates 0
        exact Prod.ext ho hcs
  obtain ⟨ho, hcs⟩ := Prod.ext_iff.mp heq
  simp only at ho hcs
  refine ⟨heq, ?_⟩
  rw [ho, hcs]
  split
  next => exact ⟨Nat.zero_le _, shownBy_failed []⟩
  next => exact resolveWithin_spec factory (canonical target) 16 initialCandidates

/-- The root is not asked about itself: a target without a label fails before
anybody is contacted, where the reference asks the first candidate. -/
theorem not_forall_resolveWithin :
    ¬∀ (target : Name) (initialCandidates : List SocketAddr) (factory : DnsServerFactory),
    ((resolveIteratively target initialCandidates factory).1.outcome,
        contacts (resolveIteratively target initialCandidates factory).2) =
      resolveWithin factory (canonical target) 16 initialCandidates := by
  intro hall
  have h := hall ".".toList [⟨.v4 #v[192, 0, 2, 1], 9000⟩] fun _ =>
    .ok ⟨[], fun _ => .ok [.a #v[192, 0, 2, 7]]⟩
  exact absurd (congrArg (fun p => p.2.length) h) (by decide +kernel)

end Dns

end Dnspir
