/-
The walk of one server's suffixes (`client::one_hop`).

* `hopFrom_quiet`: up to the apex, a walk that hears of no name server goes on.
* `hopFrom_delegation`: where a delegation comes from.
* `oneHop_downward_iff`: delegations go strictly downward unless the walk ends
  at an apex that publishes its own name servers.
-/
import Dnspir.Dns.Client
import Dnspir.Dns.SuffixFacts
import Dnspir.Dns.TokenFacts

namespace Dnspir

namespace Dns

/-! ## Stripping labels -/

theorem stripLeftmost_append {x rest : Name} (h : '.' ∉ x) :
    stripLeftmost (x ++ '.' :: rest) = some rest := by
  have hdrop : (x ++ '.' :: rest).dropWhile (· != '.') = '.' :: rest := by
    rw [List.dropWhile_append_of_pos fun c hc => by simpa using ne_of_mem_of_not_mem hc h]
    rfl
  rw [stripLeftmost, hdrop]

theorem exists_of_stripLeftmost {name rest : Name} (h : stripLeftmost name = some rest) :
    ∃ x, '.' ∉ x ∧ name = x ++ '.' :: rest := by
  by_cases hdot : '.' ∈ name
  · obtain ⟨x, tail, rfl, hx⟩ := List.eq_append_cons_of_mem hdot
    rw [stripLeftmost_append hx] at h
    cases h
    exact ⟨x, hx, rfl⟩
  · have hdrop : name.dropWhile (· != '.') = [] := List.dropWhile_eq_nil_iff.mpr fun c hc => by
      simpa using ne_of_mem_of_not_mem hc hdot
    rw [stripLeftmost, hdrop] at h
    cases h

theorem nameInSuffix_strip {name rest : Name} (h : stripLeftmost name = some rest) :
    nameInSuffix name rest := by
  obtain ⟨x, -, rfl⟩ := exists_of_stripLeftmost h
  exact nameInSuffix_append.mpr (.inr (.inr ⟨x, rfl⟩))

/-- The next name of a walk is in every suffix that is still to come. -/
theorem exists_strip {name s : Name} (h : nameInSuffix name s) (hne : s ≠ name) (hs : s ≠ []) :
    ∃ rest, stripLeftmost name = some rest ∧ nameInSuffix rest s := by
  rcases nameInSuffix_append.mp h with h | h | ⟨x, rfl⟩
  · exact absurd h hs
  · exact absurd h.symm hne
  · by_cases hdot : '.' ∈ x
    · obtain ⟨y, z, rfl, hy⟩ := List.eq_append_cons_of_mem hdot
      refine ⟨z ++ '.' :: s, ?_, nameInSuffix_append.mpr (.inr (.inr ⟨z, rfl⟩))⟩
      rw [List.append_assoc, List.cons_append]
      exact stripLeftmost_append hy
    · exact ⟨s, stripLeftmost_append hdot, nameInSuffix_refl s⟩

/-- Below the apex the next name is in the zone again. -/
theorem nameInSuffix_rest {name rest zone : Name} (h : nameInSuffix name zone) (hne : name ≠ zone)
    (hstrip : stripLeftmost name = some rest) : nameInSuffix rest zone := by
  by_cases hz : zone = []
  · exact nameInSuffix_append.mpr (.inl hz)
  · obtain ⟨rest', hstrip', hrest⟩ := exists_strip h (Ne.symm hne) hz
    rw [hstrip] at hstrip'
    cases hstrip'
    exact hrest

/-- A name that ends in a label, as a canonical one does. -/
def EndsInLabel (name : Name) : Prop := name ≠ [] ∧ name.getLast? ≠ some '.'

theorem EndsInLabel.strip {name rest : Name} (h : EndsInLabel name)
    (hs : stripLeftmost name = some rest) :
    EndsInLabel rest := by
  obtain ⟨x, -, rfl⟩ := exists_of_stripLeftmost hs
  cases rest with
  | nil => exact absurd (by simp) h.2
  | cons c rest => exact ⟨by simp, fun hl => h.2 (by simpa [List.getLast?_cons] using hl)⟩

theorem endsInLabel_of_canonical {target : Name} (hc : canonical target = target) (hne : target ≠ []) :
    EndsInLabel target := by
  refine ⟨hne, fun hl => ?_⟩
  have hself := rdropWhile_canonical target
  rw [hc, List.rdropWhile_eq_self_iff] at hself
  exact hself hne (by rw [List.getLast_eq_iff_getLast?_eq_some hne |>.mpr hl]; rfl)

/-! ## What a server says of a name -/

section Hop
variable {server : DnsServer} {target : Name}

/-- A name is answered, without name servers. -/
def Quiet (server : DnsServer) (s : Name) : Prop :=
  ∃ records, server.query s = .ok records ∧ records.filterMap Record.nsIp = []

def NoAddress (server : DnsServer) (s : Name) : Prop :=
  ∀ records, server.query s = .ok records → records.filter Record.isAddress = []

def HasNameServer (server : DnsServer) (s : Name) : Prop :=
  ∃ records, server.query s = .ok records ∧ records.filterMap Record.nsIp ≠ []

/-- A walk goes on past a name that is not the target, or has no address. -/
theorem noAddress_iff {name : Name} {records : List Record} (hrec : server.query name = .ok records) :
    ¬(name = target ∧ records.filter Record.isAddress ≠ []) ↔
      (name = target → NoAddress server target) := by
  constructor
  · intro h he records' hrec'
    subst he
    cases hrec.symm.trans hrec'
    by_contra hne
    exact h ⟨rfl, hne⟩
  · intro h hanswer
    obtain ⟨rfl, hne⟩ := hanswer
    exact hne (h rfl records hrec)

/-- One step of a walk that hears of nothing. -/
theorem hopFrom_step {name : Name} (hq : Quiet server name)
    (ha : name = target → NoAddress server target) :
    hopFrom server target name = if name = server.zoneName then .ok .notFound
      else match stripLeftmost name with
        | some stripped => hopFrom server target stripped
        | none => .ok .notFound := by
  obtain ⟨records, hrec, hns⟩ := hq
  have hanswer := (noAddress_iff hrec).mpr ha
  rw [hopFrom, hrec]
  simp only [hanswer, hns, ne_eq, not_true_eq_false, if_false]
  split
  next => rfl
  next => split <;> simp_all

/-- **Up to the apex** a walk that hears of nothing goes on. -/
theorem hopFrom_quiet (hz : server.zoneName ≠ []) (ha : NoAddress server target) {name : Name}
    (hname : nameInSuffix name server.zoneName)
    (hq : ∀ s, nameInSuffix name s → nameInSuffix s server.zoneName → s ≠ server.zoneName →
      Quiet server s) :
    hopFrom server target name = hopFrom server target server.zoneName := by
  induction hlen : name.length using Nat.strongRecOn generalizing name with
  | ind n ih =>
    by_cases he : name = server.zoneName
    · rw [he]
    · obtain ⟨rest, hstrip, hrest⟩ := exists_strip hname (Ne.symm he) hz
      rw [hopFrom_step (hq name (nameInSuffix_refl name) hname he) fun _ => ha, if_neg he, hstrip]
      exact ih _ (hlen ▸ stripLeftmost_length hstrip) hrest
        (fun s hs => hq s (nameInSuffix_trans (nameInSuffix_strip hstrip) hs)) rfl

/-- The root has no name that a walk asks for. -/
theorem hopFrom_root (hz : server.zoneName = []) (ha : NoAddress server target) {name : Name}
    (hend : EndsInLabel name) (hq : ∀ s, nameInSuffix name s → s ≠ [] → Quiet server s) :
    hopFrom server target name = .ok .notFound := by
  induction hlen : name.length using Nat.strongRecOn generalizing name with
  | ind n ih =>
    rw [hopFrom_step (hq name (nameInSuffix_refl name) hend.1) fun _ => ha, hz, if_neg hend.1]
    split
    next rest hstrip =>
      exact ih _ (hlen ▸ stripLeftmost_length hstrip) (hend.strip hstrip)
        (fun s hs => hq s (nameInSuffix_trans (nameInSuffix_strip hstrip) hs)) rfl
    next => rfl

/-- Where a delegation comes from. -/
structure DelegatedFrom (server : DnsServer) (target name source : Name) : Prop where
  suffix : nameInSuffix name source
  ne_nil : source ≠ []
  zone : nameInSuffix source server.zoneName
  nameServer : HasNameServer server source
  quiet : ∀ s, nameInSuffix name s → nameInSuffix s source → s ≠ source → Quiet server s
  noAddress : name = target → NoAddress server target

theorem hopFrom_delegation {name source : Name} {nsIps : List IpAddr} (hend : EndsInLabel name)
    (hname : nameInSuffix name server.zoneName)
    (h : hopFrom server target name = .ok (.delegation source nsIps)) :
    DelegatedFrom server target name source := by
  induction hlen : name.length using Nat.strongRecOn generalizing name with
  | ind n ih =>
    rw [hopFrom] at h
    split at h
    next => cases h
    next records hrec =>
      simp only at h
      split at h
      next => cases h
      next hanswer =>
        have ha := (noAddress_iff hrec).mp hanswer
        split at h
        next hns =>
          cases h
          exact ⟨nameInSuffix_refl _, hend.1, hname, ⟨records, hrec, hns⟩,
            fun s hs hs' hne => absurd (eq_of_nameInSuffix hs' hs) hne, ha⟩
        next hns =>
          have hquiet : Quiet server name := ⟨records, hrec, not_not.mp hns⟩
          split at h
          next => cases h
          next hapex =>
            split at h
            next rest hstrip =>
              have hrest := nameInSuffix_rest hname hapex hstrip
              obtain ⟨hsuf, hne, hzone, hsrc, hq, -⟩ :=
                ih _ (hlen ▸ stripLeftmost_length hstrip) (hend.strip hstrip) hrest h rfl
              refine ⟨nameInSuffix_trans (nameInSuffix_strip hstrip) hsuf, hne, hzone, hsrc,
                fun s hs hs' hs'' => ?_, ha⟩
              by_cases he : s = name
              · exact he ▸ hquiet
              · have hs0 : s ≠ [] := by
                  rintro rfl
                  exact hne (nameInSuffix_nil.mp hs')
                obtain ⟨rest', hstrip', hr⟩ := exists_strip hs he hs0
                rw [hstrip] at hstrip'
                cases hstrip'
                exact hq s hr hs' hs''
            next => cases h

/-! ## Downward delegations -/

/-- A delegation is from below the apex, and a name that nothing below the apex
speaks of is not found, also where the apex publishes its name servers. -/
structure DownwardOnly (server : DnsServer) (target : Name) : Prop where
  below : ∀ source nsIps, oneHop server target = .ok (.delegation source nsIps) →
    source ≠ [] ∧ nameInSuffix target source ∧ nameInSuffix source server.zoneName ∧
      source ≠ server.zoneName
  notFound : HasNameServer server server.zoneName → nameInSuffix target server.zoneName →
    Quiet server target → NoAddress server target →
    (∀ s, nameInSuffix target s → nameInSuffix s server.zoneName → s ≠ server.zoneName →
      Quiet server s) →
    oneHop server target = .ok .notFound

/-- The walk ends at an apex that publishes its name servers. -/
structure EndsAtApex (server : DnsServer) (target : Name) : Prop where
  zone_ne : server.zoneName ≠ []
  inZone : nameInSuffix target server.zoneName
  noAddress : NoAddress server target
  quiet : ∀ s, nameInSuffix target s → nameInSuffix s server.zoneName → s ≠ server.zoneName →
    Quiet server s
  apex : HasNameServer server server.zoneName

theorem oneHop_inZone (h : nameInSuffix target server.zoneName) :
    oneHop server target = hopFrom server target target := by
  rw [oneHop, targetBelongsToZone, h]
  rfl

theorem nameInSuffix_of_oneHop {source : Name} {nsIps : List IpAddr}
    (h : oneHop server target = .ok (.delegation source nsIps)) :
    nameInSuffix target server.zoneName := by
  by_contra hz
  rw [oneHop, targetBelongsToZone, Bool.eq_false_iff.mpr hz] at h
  cases h

/-- The apex is where such a walk is sent. -/
theorem EndsAtApex.oneHop (h : EndsAtApex server target) :
    ∃ nsIps, Dns.oneHop server target = .ok (.delegation server.zoneName nsIps) := by
  obtain ⟨records, hrec, hns⟩ := h.apex
  refine ⟨records.filterMap Record.nsIp, ?_⟩
  rw [oneHop_inZone h.inZone, hopFrom_quiet h.zone_ne h.noAddress h.inZone h.quiet, hopFrom, hrec]
  have hanswer : ¬(server.zoneName = target ∧ records.filter Record.isAddress ≠ []) := by
    intro h'
    obtain ⟨he, hne⟩ := h'
    exact hne (h.noAddress records (he ▸ hrec))
  simp only [hanswer, hns, ne_eq, not_false_eq_true, if_false, if_true]

/-- **Delegations go strictly downward** exactly when the walk does not end at
an apex that publishes its name servers. -/
theorem oneHop_downward_iff (hc : canonical target = target) (hne : target ≠ []) :
    DownwardOnly server target ↔ ¬EndsAtApex server target := by
  have hend := endsInLabel_of_canonical hc hne
  constructor
  · intro hdown hapex
    obtain ⟨nsIps, hhop⟩ := hapex.oneHop
    exact (hdown.below _ _ hhop).2.2.2 rfl
  · intro hnot
    refine ⟨fun source nsIps hhop => ?_, fun hns hzone _ ha hquiet => ?_⟩
    · have hzone := nameInSuffix_of_oneHop hhop
      rw [oneHop_inZone hzone] at hhop
      have hfrom := hopFrom_delegation hend hzone hhop
      refine ⟨hfrom.ne_nil, hfrom.suffix, hfrom.zone, ?_⟩
      rintro rfl
      exact hnot ⟨hfrom.ne_nil, hzone, hfrom.noAddress rfl, hfrom.quiet, hfrom.nameServer⟩
    · rw [oneHop_inZone hzone]
      by_cases hz : server.zoneName = []
      · exact hopFrom_root hz ha hend fun s hs hs0 =>
          hquiet s hs (nameInSuffix_append.mpr (.inl hz)) (hz ▸ hs0)
      · exact absurd ⟨hz, hzone, ha, hquiet, hns⟩ hnot

end Hop

/-- A server of `com`, with name servers for it and for a zone below it. -/
def comServer : DnsServer where
  zoneName := "com".toList
  query name := .ok (if name = "com".toList then [.ns (.v4 #v[192, 0, 2, 1])]
    else if name = "shop.com".toList then [.ns (.v4 #v[192, 0, 2, 2])] else [])

theorem oneHop_downward_iff_shop : DownwardOnly comServer "www.shop.com".toList ∧
    oneHop comServer "www.shop.com".toList =
      .ok (.delegation "shop.com".toList [.v4 #v[192, 0, 2, 2]]) := by
  constructor
  · refine (oneHop_downward_iff (by decide +kernel) (by simp)).mpr fun h => ?_
    obtain ⟨records, hrec, hns⟩ :=
      h.quiet "shop.com".toList (by decide +kernel) (by decide +kernel) (by decide +kernel)
    cases hrec
    cases hns
  · have hquery : comServer.query "www.shop.com".toList = .ok [] := rfl
    have hquery' : comServer.query "shop.com".toList = .ok [.ns (.v4 #v[192, 0, 2, 2])] := rfl
    rw [oneHop_inZone (by decide +kernel), hopFrom, hquery]
    simp only [List.filter_nil, List.filterMap_nil, ne_eq, not_true_eq_false, and_false, if_false]
    rw [if_neg (by decide)]
    split
    next rest hstrip =>
      obtain rfl : "shop.com".toList = rest := Option.some.inj (Eq.trans (by decide +kernel) hstrip)
      rw [hopFrom, hquery']
      rfl
    next hnone => exact absurd hnone (by decide +kernel)

/-- A name that is not there is referred back to the servers of the zone. -/
theorem oneHop_refers_back :
    ¬∀ server target, canonical target = target → target ≠ [] → DownwardOnly server target := by
  intro hall
  have hapex : EndsAtApex comServer "x.com".toList := by
    have hquiet : ∀ s, s ≠ "com".toList → s ≠ "shop.com".toList → comServer.query s = .ok [] :=
        fun s hs hs' =>
      congrArg Except.ok ((if_neg hs).trans (if_neg hs'))
    refine ⟨by decide, by decide +kernel, fun records hrec => ?_, fun s hs _ hne => ?_,
      ⟨[.ns (.v4 #v[192, 0, 2, 1])], rfl, by decide⟩⟩
    · rw [hquiet _ (by decide) (by decide)] at hrec
      cases hrec
      rfl
    · have hshop : s ≠ "shop.com".toList := by
        rintro rfl
        exact absurd hs (by decide +kernel)
      exact ⟨[], hquiet s hne hshop, rfl⟩
  obtain ⟨nsIps, hhop⟩ := hapex.oneHop
  exact ((hall comServer "x.com".toList (by decide +kernel) (by simp)).below _ _ hhop).2.2.2 rfl

end Dns

end Dnspir
