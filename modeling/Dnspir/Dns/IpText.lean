/-
Addresses as text, without the abbreviation of zeros in IPv6 addresses. It is
a format as the dump of a zone needs it (`ipText_lawful`).
-/
import Dnspir.Dns.DumpFacts

namespace Dnspir

namespace Dns

/-! ## Groups of digits -/

def digitOf (c : Char) : Nat := if c.toNat < 97 then c.toNat - 48 else c.toNat - 87

def isDigitChar (c : Char) : Bool := (48 ≤ c.toNat ∧ c.toNat ≤ 57) ∨ (97 ≤ c.toNat ∧ c.toNat ≤ 102)

def groupValue (base : Nat) (tok : Name) : Nat := tok.foldl (fun n c => base * n + digitOf c) 0

/-- A number below the bound, without leading zeros. -/
def parseGroup (base bound : Nat) (tok : Name) : Option Nat :=
  let n := groupValue base tok
  if n < bound ∧ Nat.toDigits base n = tok then some n else none

def showGroups (base : Nat) (sep : Char) (groups : List Nat) : Name :=
  [sep].intercalate (groups.map (Nat.toDigits base))

def parseGroups (base bound : Nat) (sep : Char) (tok : Name) : Option (List Nat) :=
  (tok.splitOn sep).mapM (parseGroup base bound)

theorem digitChar_lt : ∀ n < 16, digitOf n.digitChar = n ∧ isDigitChar n.digitChar = true := by decide

section Groups
variable {base : Nat} (hbase : 1 < base) (hbase' : base ≤ 16)
include hbase hbase'

theorem isDigitChar_toDigits (n : Nat) : ∀ c ∈ Nat.toDigits base n, isDigitChar c = true := by
  induction n using Nat.strongRecOn with
  | ind n ih =>
    rw [Nat.toDigits_eq_if hbase]
    split
    next h => simpa using (digitChar_lt n (by omega)).2
    next h =>
      simp only [List.mem_append, List.mem_singleton]
      rintro c (hc | rfl)
      · exact ih _ (Nat.div_lt_self (by omega) hbase) c hc
      · exact (digitChar_lt _ ((Nat.mod_lt n (by omega)).trans_le hbase')).2

theorem groupValue_toDigits (n : Nat) : groupValue base (Nat.toDigits base n) = n := by
  induction n using Nat.strongRecOn with
  | ind n ih =>
    rw [Nat.toDigits_eq_if hbase]
    split
    next h => simp [groupValue, (digitChar_lt n (by omega)).1]
    next h =>
      have hdiv := ih _ (Nat.div_lt_self (by omega) hbase)
      rw [groupValue] at hdiv ⊢
      rw [List.foldl_append, hdiv, List.foldl_cons, List.foldl_nil,
        (digitChar_lt _ ((Nat.mod_lt n (by omega)).trans_le hbase')).1]
      exact Nat.div_add_mod n base

/-- Groups that were written are read back. -/
theorem parseGroups_show {bound : Nat} {sep : Char} (hsep : isDigitChar sep = false)
    {groups : List Nat} (hne : groups ≠ []) (hlt : ∀ g ∈ groups, g < bound) :
    parseGroups base bound sep (showGroups base sep groups) = some groups := by
  have hnot : ∀ tok ∈ groups.map (Nat.toDigits base), sep ∉ tok :=
      List.forall_mem_map.mpr fun g _ hmem => by
    rw [isDigitChar_toDigits hbase hbase' g sep hmem] at hsep
    cases hsep
  rw [parseGroups, showGroups, List.splitOn_intercalate _ hnot (by simpa using hne)]
  clear hne hnot
  induction groups with
  | nil => rfl
  | cons g groups ih =>
    have hg : parseGroup base bound (Nat.toDigits base g) = some g := by
      simp [parseGroup, groupValue_toDigits hbase hbase', hlt g (by simp)]
    rw [List.map_cons, List.mapM_cons, hg, ih fun g' h => hlt g' (by simp [h])]
    rfl

theorem showGroups_text {sep : Char} (hsep : isWhitespace sep = false) {groups : List Nat}
    (hne : groups ≠ []) :
    showGroups base sep groups ≠ [] ∧ ∀ c ∈ showGroups base sep groups, isWhitespace c = false := by
  have hdigit : ∀ g, ∀ c ∈ Nat.toDigits base g, isWhitespace c = false := fun g c hc => by
    have := isDigitChar_toDigits hbase hbase' g c hc
    simp only [isDigitChar, decide_eq_true_eq] at this
    simp only [isWhitespace, decide_eq_false_iff_not]
    omega
  cases groups with
  | nil => exact absurd rfl hne
  | cons g groups =>
    clear hne
    rw [showGroups, List.map_cons]
    refine ⟨?_, ?_⟩
    · have := Nat.length_toDigits_pos (b := base) (n := g)
      cases groups <;> simp [List.intercalate]
    · induction groups generalizing g with
      | nil => simpa [List.intercalate] using hdigit g
      | cons g' groups ih =>
        rw [List.map_cons, List.intercalate_cons_cons]
        simp only [List.mem_append, List.mem_singleton]
        rintro c ((hc | rfl) | hc)
        · exact hdigit g c hc
        · exact hsep
        · exact ih g' c hc

end Groups

/-! ## Addresses -/

def v4Groups (ip : Ipv4Addr) : List Nat := List.ofFn fun i => ip[i].toNat

def v6Groups (ip : Ipv6Addr) : List Nat :=
  List.ofFn fun i : Fin 8 => 256 * ip[2 * i.val].toNat + ip[2 * i.val + 1].toNat

/-- Octets in decimal, and groups of two octets in hexadecimal. -/
def ipText : IpFormat where
  showV4 ip := showGroups 10 '.' (v4Groups ip)
  parseV4 tok := (parseGroups 10 256 '.' tok).bind fun groups =>
    if h : groups.length = 4 then some (Vector.ofFn fun i => UInt8.ofNat groups[i]) else none
  showV6 ip := showGroups 16 ':' (v6Groups ip)
  parseV6 tok := (parseGroups 16 65536 ':' tok).bind fun groups =>
    if h : groups.length = 8 then
      some (Vector.ofFn fun i : Fin 16 =>
        UInt8.ofNat (if i.val % 2 = 0 then groups[i.val / 2] / 256 else groups[i.val / 2]))
    else none

theorem v4Groups_lt (ip : Ipv4Addr) : ∀ g ∈ v4Groups ip, g < 256 :=
  List.forall_mem_ofFn_iff.mpr fun _ => UInt8.toNat_lt _

theorem v6Groups_lt (ip : Ipv6Addr) :
    ∀ g ∈ v6Groups ip, g < 65536 := List.forall_mem_ofFn_iff.mpr fun i => by
  have := (ip[2 * i.val]).toNat_lt
  have := (ip[2 * i.val + 1]).toNat_lt
  omega

theorem length_v4Groups (ip : Ipv4Addr) : (v4Groups ip).length = 4 := List.length_ofFn

theorem length_v6Groups (ip : Ipv6Addr) : (v6Groups ip).length = 8 := List.length_ofFn

theorem getElem_v6Groups (ip : Ipv6Addr) {k : ℕ} (h : k < (v6Groups ip).length) (hk : 2 * k + 1 < 16) :
    (v6Groups ip)[k] = 256 * ip[2 * k].toNat + ip[2 * k + 1].toNat := List.getElem_ofFn _

theorem v4Groups_ne_nil (ip : Ipv4Addr) : v4Groups ip ≠ [] := List.cons_ne_nil _ _

theorem v6Groups_ne_nil (ip : Ipv6Addr) : v6Groups ip ≠ [] := List.cons_ne_nil _ _

theorem parse_show_v4 (ip : Ipv4Addr) : ipText.parseV4 (ipText.showV4 ip) = some ip := by
  have hread : parseGroups 10 256 '.' (showGroups 10 '.' (v4Groups ip)) = some (v4Groups ip) :=
    parseGroups_show (by decide) (by decide) (by decide) (v4Groups_ne_nil ip) (v4Groups_lt ip)
  simp only [ipText, hread, Option.bind_some]
  rw [dif_pos (length_v4Groups ip), Option.some.injEq]
  ext i hi
  rw [Vector.getElem_ofFn]
  exact congrArg UInt8.toNat ((congrArg UInt8.ofNat (List.getElem_ofFn _)).trans UInt8.ofNat_toNat)

theorem parse_show_v6 (ip : Ipv6Addr) : ipText.parseV6 (ipText.showV6 ip) = some ip := by
  have hread : parseGroups 16 65536 ':' (showGroups 16 ':' (v6Groups ip)) = some (v6Groups ip) :=
    parseGroups_show (by decide) (by decide) (by decide) (v6Groups_ne_nil ip) (v6Groups_lt ip)
  simp only [ipText, hread, Option.bind_some]
  rw [dif_pos (length_v6Groups ip), Option.some.injEq]
  ext i hi
  have hk : 2 * (i / 2) + 1 < 16 := by omega
  have h1 := ip[2 * (i / 2) + 1].toNat_lt
  rw [Vector.getElem_ofFn, UInt8.toNat_ofNat', getElem_v6Groups _ _ hk]
  split
  next he =>
    have hi2 : 2 * (i / 2) = i := by simp only at he; omega
    have h0 := ip[i].toNat_lt
    simp only [hi2] at h1 ⊢
    omega
  next he =>
    have hi2 : 2 * (i / 2) + 1 = i := by simp only at he; omega
    simp only [hi2] at h1 ⊢
    omega

theorem ipText_lawful : ipText.Lawful := by
  have h4 : ∀ ip, ipText.showV4 ip ≠ [] ∧ ∀ c ∈ ipText.showV4 ip, isWhitespace c = false := fun ip =>
    showGroups_text (by decide) (by decide) (by decide) (v4Groups_ne_nil ip)
  have h6 : ∀ ip, ipText.showV6 ip ≠ [] ∧ ∀ c ∈ ipText.showV6 ip, isWhitespace c = false := fun ip =>
    showGroups_text (by decide) (by decide) (by decide) (v6Groups_ne_nil ip)
  exact ⟨parse_show_v4, parse_show_v6, fun ip => (h4 ip).1, fun ip => (h6 ip).1,
    fun ip => (h4 ip).2, fun ip => (h6 ip).2⟩

/-- A text with all three types, a host with glue and one without. -/
def exampleText : Name :=
  ("b.example. 3600 IN A 192.0.2.7\nexample. IN NS b.example.\n; a comment\nexample. NS ns.test.\n" ++
    " B.example. AAAA 2001:db8:1:2:3:4:5:6").toList

theorem parse_serialize_example : ∃ zone out again, Zone.parse ipText exampleText = some zone ∧
    serialize ipText zone = some out ∧ Zone.parse ipText out = some again ∧
      again.zoneName = zone.zoneName ∧
      ∀ name, ∃ records, zone.query name = some records ∧ again.query name = some records := by
  have hsome : (Zone.parse ipText exampleText).isSome := by decide +kernel
  obtain ⟨zone, hzone⟩ := Option.isSome_iff_exists.mp hsome
  obtain ⟨out, again, h⟩ := parse_serialize ipText_lawful hzone
  exact ⟨zone, out, again, hzone, h⟩

end Dns

end Dnspir
