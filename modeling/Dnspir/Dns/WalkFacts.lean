/-
The names one server is asked for (`client::one_hop`).

* `oneHopLog_fst`: keeping a log changes nothing.
* `hopLog_walked`: what is asked, and where the walk stops.
* `oneHop_congr`: the addresses of other names than the target do not matter.
* `oneHop_walked`: the walk of one server.
-/
import Dnspir.Dns.HopFacts

namespace Dnspir

namespace Dns

/-- The loop of `one_hop`, with the names it asks for, in order. -/
def hopLog (server : DnsServer) (target tryName : Name) : Except IoError HopOutcome × List Name :=
  match server.query tryName with
  | .error e => (.error e, [tryName])
  | .ok records =>
    let aRecs := records.filter Record.isAddress
    let nsIps := records.filterMap Record.nsIp
    if tryName = target ∧ aRecs ≠ [] then (.ok (.answer aRecs), [tryName])
    else if nsIps ≠ [] then (.ok (.delegation tryName nsIps), [tryName])
    else if tryName = server.zoneName then (.ok .notFound, [tryName])
    else
      match _h : stripLeftmost tryName with
      | some stripped =>
        let rest := hopLog server target stripped
        (rest.1, tryName :: rest.2)
      | none => (.ok .notFound, [tryName])
termination_by tryName.length
decreasing_by exact stripLeftmost_length _h

def oneHopLog (server : DnsServer) (target : Name) : Except IoError HopOutcome × List Name :=
  if !targetBelongsToZone target server.zoneName then (.ok .outOfZone, [])
  else hopLog server target target

section Walk
variable {server : DnsServer} {target : Name}

theorem hopLog_fst (server : DnsServer) (target tryName : Name) :
    (hopLog server target tryName).1 = hopFrom server target tryName := by
  induction hlen : tryName.length using Nat.strongRecOn generalizing tryName with
  | ind n ih =>
    rw [hopLog]
    cases hrec : server.query tryName with
    | error e => rw [hopFrom, hrec]
    | ok records =>
      simp only
      by_cases ha : tryName = target ∧ records.filter Record.isAddress ≠ []
      · rw [hopFrom, hrec, if_pos ha]
        exact (if_pos ha).symm
      by_cases hn : records.filterMap Record.nsIp ≠ []
      · rw [hopFrom, hrec, if_neg ha, if_pos hn]
        exact ((if_neg ha).trans (if_pos hn)).symm
      rw [hopFrom_step ⟨records, hrec, not_not.mp hn⟩ ((noAddress_iff hrec).mp ha), if_neg ha,
        if_neg hn]
      by_cases he : tryName = server.zoneName
      · rw [if_pos he, if_pos he]
      rw [if_neg he, if_neg he]
      split
      next rest hstrip =>
        rw [hstrip]
        exact ih _ (hlen ▸ stripLeftmost_length hstrip) rest rfl
      next hstrip => rw [hstrip]

theorem oneHopLog_fst (server : DnsServer) (target : Name) :
    (oneHopLog server target).1 = oneHop server target := by
  rw [oneHopLog, oneHop]
  split
  next => rfl
  next => exact hopLog_fst server target target

/-! ## Where a walk stops -/

/-- What the last name that is asked for decides. An apex that publishes name
servers is left open. -/
inductive StopsAt (server : DnsServer) (target last : Name) : Except IoError HopOutcome → Prop
  | error {e : IoError} : server.query last = .error e → StopsAt server target last (.error e)
  | answer {records : List Record} : server.query last = .ok records → last = target →
      records.filter Record.isAddress ≠ [] →
      StopsAt server target last (.ok (.answer (records.filter Record.isAddress)))
  | delegation {records : List Record} : server.query last = .ok records → last ≠ server.zoneName →
      (last = target → NoAddress server target) → records.filterMap Record.nsIp ≠ [] →
      StopsAt server target last (.ok (.delegation last (records.filterMap Record.nsIp)))
  | apex {records : List Record} {outcome : Except IoError HopOutcome} :
      server.query last = .ok records →
      last = server.zoneName → (last = target → NoAddress server target) →
      (records.filterMap Record.nsIp = [] → outcome = .ok .notFound) →
        StopsAt server target last outcome
  | root : server.zoneName = [] → '.' ∉ last → Quiet server last →
      (last = target → NoAddress server target) →
      StopsAt server target last (.ok .notFound)

/-- A walk from a name on: its suffixes, each shorter by a label, in the zone,
to the first that stops it. -/
structure Walked (server : DnsServer) (target name : Name) (outcome : Except IoError HopOutcome)
    (asked : List Name) : Prop where
  head : asked.head? = some name
  strip : asked.IsChain fun s s' => stripLeftmost s = some s'
  nodup : asked.Nodup
  inZone : ∀ s ∈ asked, nameInSuffix name s ∧ nameInSuffix s server.zoneName
  goesOn : ∀ s ∈ asked.dropLast, s ≠ server.zoneName ∧ Quiet server s ∧
    (s = target → NoAddress server target)
  stops : ∃ last, asked.getLast? = some last ∧ StopsAt server target last outcome

theorem walked_singleton {name : Name} {outcome : Except IoError HopOutcome}
    (hname : nameInSuffix name server.zoneName) (h : StopsAt server target name outcome) :
    Walked server target name outcome [name] where
  head := rfl
  strip := List.isChain_singleton name
  nodup := List.nodup_singleton name
  inZone s hs := by
    cases List.mem_singleton.mp hs
    exact ⟨nameInSuffix_refl name, hname⟩
  goesOn s hs := by cases hs
  stops := ⟨name, rfl, h⟩

theorem Walked.cons {name rest : Name} {outcome : Except IoError HopOutcome} {asked : List Name}
    (h : Walked server target rest outcome asked) (hstrip : stripLeftmost name = some rest)
    (hname : nameInSuffix name server.zoneName)
    (hgoes : name ≠ server.zoneName ∧ Quiet server name ∧ (name = target → NoAddress server target)) :
    Walked server target name outcome (name :: asked) := by
  obtain ⟨s, asked, rfl⟩ : ∃ s tail, asked = s :: tail := by
    cases asked with
    | nil => cases h.head
    | cons s tail => exact ⟨s, tail, rfl⟩
  cases h.head
  refine ⟨rfl, List.isChain_cons_cons.mpr ⟨hstrip, h.strip⟩,
    List.nodup_cons.mpr ⟨fun hmem => ?_, h.nodup⟩, ?_, ?_, ?_⟩
  · have hle := nameInSuffix_length (h.inZone name hmem).1
    have hlt := stripLeftmost_length hstrip
    omega
  · intro s' hs'
    rcases List.mem_cons.mp hs' with rfl | hs'
    · exact ⟨nameInSuffix_refl s', hname⟩
    · exact ⟨nameInSuffix_trans (nameInSuffix_strip hstrip) (h.inZone s' hs').1, (h.inZone s' hs').2⟩
  · intro s' hs'
    rcases List.mem_cons.mp hs' with rfl | hs'
    · exact hgoes
    · exact h.goesOn s' hs'
  · obtain ⟨last, hl, hstops⟩ := h.stops
    exact ⟨last, hl, hstops⟩

/-- **A walk** from a name in the zone. -/
theorem hopLog_walked {name : Name} (hend : EndsInLabel name)
    (hname : nameInSuffix name server.zoneName) :
    Walked server target name (hopLog server target name).1 (hopLog server target name).2 := by
  induction hlen : name.length using Nat.strongRecOn generalizing name with
  | ind n ih =>
    rw [hopLog]
    cases hrec : server.query name with
    | error e => exact walked_singleton hname (.error hrec)
    | ok records =>
      simp only
      split
      next h => exact walked_singleton hname (.answer hrec h.1 h.2)
      next hanswer =>
        have ha := (noAddress_iff hrec).mp hanswer
        split
        next hns =>
          by_cases hapex : name = server.zoneName
          · exact walked_singleton hname (.apex hrec hapex ha fun h => absurd h hns)
          · exact walked_singleton hname (.delegation hrec hapex ha hns)
        next hns =>
          have hquiet : Quiet server name := ⟨records, hrec, not_not.mp hns⟩
          split
          next hapex => exact walked_singleton hname (.apex hrec hapex ha fun _ => rfl)
          next hapex =>
            split
            next rest hstrip =>
              have hrest := nameInSuffix_rest hname hapex hstrip
              exact (ih _ (hlen ▸ stripLeftmost_length hstrip)
                (hend.strip hstrip) hrest rfl).cons hstrip hname
                ⟨hapex, hquiet, ha⟩
            next hstrip =>
              -- A proper name of a zone that is not the root has a label to strip.
              have hz : server.zoneName = [] := by
                by_contra hz
                obtain ⟨rest, h, -⟩ := exists_strip hname (Ne.symm hapex) hz
                rw [hstrip] at h
                cases h
              have hdot : '.' ∉ name := fun hmem => by
                obtain ⟨x, rest, rfl, hx⟩ := List.eq_append_cons_of_mem hmem
                rw [stripLeftmost_append hx] at hstrip
                cases hstrip
              exact walked_singleton hname (.root hz hdot hquiet ha)

/-! ## Addresses on the way -/

/-- Answers that differ in addresses at most. -/
def SameNameServers (answer answer' : Except IoError (List Record)) : Prop :=
  answer.map (List.filterMap Record.nsIp) = answer'.map (List.filterMap Record.nsIp)

theorem SameNameServers.cases {answer answer' : Except IoError (List Record)}
    (h : SameNameServers answer answer') :
    (∃ e, answer = .error e ∧ answer' = .error e) ∨ ∃ records records', answer = .ok records ∧
      answer' = .ok records' ∧
      records.filterMap Record.nsIp = records'.filterMap Record.nsIp := by
  cases answer with
  | error e =>
    cases answer' with
    | error e' =>
      cases h
      exact .inl ⟨e, rfl, rfl⟩
    | ok records' => cases h
  | ok records =>
    cases answer' with
    | error e' => cases h
    | ok records' => exact .inr ⟨records, records', rfl, rfl, Except.ok.inj h⟩

theorem hopFrom_congr {server' : DnsServer} (hz : server'.zoneName = server.zoneName)
    (ht : server'.query target = server.query target)
    (hs : ∀ s, s ≠ target → SameNameServers (server'.query s) (server.query s)) (name : Name) :
    hopFrom server' target name = hopFrom server target name := by
  induction hlen : name.length using Nat.strongRecOn generalizing name with
  | ind n ih =>
    have hquery : SameNameServers (server'.query name) (server.query name) := by
      by_cases he : name = target
      · rw [he, ht]
        rfl
      · exact hs name he
    rcases hquery.cases with ⟨e, hrec', hrec⟩ | ⟨records', records, hrec', hrec, hns⟩
    · rw [hopFrom, hopFrom, hrec, hrec']
    · have hsame : name = target → records' = records := fun he => by
        rw [he, ht, ← he] at hrec'
        exact Except.ok.inj (hrec'.symm.trans hrec)
      have hanswer : (name = target ∧ records'.filter Record.isAddress ≠ []) ↔
          (name = target ∧ records.filter Record.isAddress ≠ []) :=
        and_congr_right fun he => by rw [hsame he]
      rw [hopFrom, hopFrom, hrec, hrec']
      simp only [hns, hz]
      by_cases h : name = target ∧ records.filter Record.isAddress ≠ []
      · rw [if_pos h, if_pos (hanswer.mpr h), hsame h.1]
      · rw [if_neg h, if_neg (hanswer.not.mpr h)]
        split
        next => rfl
        next =>
          split
          next => rfl
          next =>
            split
            next rest hstrip => exact ih _ (hlen ▸ stripLeftmost_length hstrip) rest rfl
            next => rfl

theorem oneHop_congr {server' : DnsServer} (hz : server'.zoneName = server.zoneName)
    (ht : server'.query target = server.query target)
    (hs : ∀ s, s ≠ target → SameNameServers (server'.query s) (server.query s)) :
    oneHop server' target = oneHop server target := by
  rw [oneHop, oneHop, hz, hopFrom_congr hz ht hs]

/-- **The walk of one server**, for every zone name, every query function and
every target: outside the zone nothing is asked, inside it the suffixes of the
target are, and only name servers are read of those below the target. -/
theorem oneHop_walked (server : DnsServer) {target : Name} (hc : canonical target = target)
    (hne : target ≠ []) :
    ∃ asked, oneHopLog server target = (oneHop server target, asked) ∧
      (¬nameInSuffix target server.zoneName → asked = [] ∧ oneHop server target = .ok .outOfZone) ∧
      (nameInSuffix target server.zoneName → Walked server target target (oneHop server target) asked) ∧
      ∀ server' : DnsServer, server'.zoneName = server.zoneName →
        server'.query target = server.query target →
        (∀ s, s ≠ target → SameNameServers (server'.query s) (server.query s)) →
        oneHop server' target = oneHop server target := by
  refine ⟨(oneHopLog server target).2, Prod.ext (oneHopLog_fst server target) rfl, fun hzone => ?_,
    fun hzone => ?_, fun server' hz ht hs => oneHop_congr hz ht hs⟩
  · have hb : targetBelongsToZone target server.zoneName = false := Bool.eq_false_iff.mpr hzone
    rw [oneHopLog, oneHop, hb]
    exact ⟨rfl, rfl⟩
  · have hwalk : Walked server target target _ _ :=
      hopLog_walked (endsInLabel_of_canonical hc hne) hzone
    have hlog : oneHopLog server target = hopLog server target target := by
      rw [oneHopLog, targetBelongsToZone, hzone]
      rfl
    rw [← oneHopLog_fst, hlog]
    exact hwalk

end Walk

theorem oneHop_walked_com :
    ∃ asked, oneHopLog comServer "x.com".toList = (oneHop comServer "x.com".toList, asked) ∧
    Walked comServer "x.com".toList "x.com".toList (oneHop comServer "x.com".toList) asked := by
  have hc : canonical "x.com".toList = "x.com".toList := by decide +kernel
  obtain ⟨asked, hlog, -, hin, -⟩ := oneHop_walked comServer hc (by simp)
  exact ⟨asked, hlog, hin (by decide +kernel)⟩

end Dns

end Dnspir
