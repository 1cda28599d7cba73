/-
Names and tokens as a zone file writes them (`zone`, `bucket::canonical`).

* `lineFields_writable`: every owner and host the parser lets through, in
  canonical form, can be written back.
* `lineFields_body`: what the parser reads of a line that is written.
-/
import Dnspir.Dns.Zone

namespace Dnspir

namespace Dns

/-! ## Characters -/

/-- Lowering changes letters only. -/
theorem toLower_cases (c : Char) : c.toLower = c ∨ 97 ≤ c.toLower.toNat ∧ c.toLower.toNat ≤ 122 := by
  unfold Char.toLower
  split
  next h =>
    have h65 : 65 ≤ c.val.toNat := UInt32.le_iff_toNat_le.mp h.1
    have h90 : c.val.toNat ≤ 90 := UInt32.le_iff_toNat_le.mp h.2
    have hval : (c.val + 32).toNat = c.val.toNat + 32 := by
      rw [UInt32.toNat_add]
      exact Nat.mod_eq_of_lt (show c.val.toNat + 32 < 2 ^ 32 by omega)
    right
    change 97 ≤ (c.val + 32).toNat ∧ (c.val + 32).toNat ≤ 122
    omega
  next => exact .inl rfl

theorem toLower_of_digit {c : Char} (h : isAsciiDigit c = true) : c.toLower = c := by
  simp only [isAsciiDigit, decide_eq_true_eq] at h
  have h57 : c.val.toNat ≤ 57 := h.2
  refine dif_neg fun hc => ?_
  have h65 : 65 ≤ c.val.toNat := UInt32.le_iff_toNat_le.mp hc.1
  omega

theorem toLower_toLower (c : Char) : c.toLower.toLower = c.toLower := by
  rcases toLower_cases c with h | h
  · rw [h, h]
  · generalize c.toLower = d at h
    refine dif_neg fun hd => ?_
    have h90 : d.val.toNat ≤ 90 := UInt32.le_iff_toNat_le.mp hd.2
    have h97 : 97 ≤ d.val.toNat := h.1
    omega

theorem toLower_false {p : Char → Bool}
    (hp : ∀ c : Char, 97 ≤ c.toNat → c.toNat ≤ 122 → p c = false) {c : Char} (h : p c = false) :
    p c.toLower = false := by
  rcases toLower_cases c with he | hr
  · rw [he, h]
  · exact hp _ hr.1 hr.2

theorem isWhitespace_letter (c : Char) (h : 97 ≤ c.toNat) (h' : c.toNat ≤ 122) :
    isWhitespace c = false := by
  simp only [isWhitespace, decide_eq_false_iff_not]
  omega

theorem isWhitespace_of_ascii {c : Char} (h : isAsciiWhitespace c = true) : isWhitespace c = true := by
  simp only [isAsciiWhitespace, List.mem_cons, List.not_mem_nil, or_false, decide_eq_true_eq] at h
  rcases h with rfl | rfl | rfl | rfl | rfl <;> decide

theorem isAsciiWhitespace_false {c : Char} (h : isWhitespace c = false) :
    isAsciiWhitespace c = false := by
  by_contra hc
  rw [isWhitespace_of_ascii (by simpa using hc)] at h
  cases h

theorem ne_of_letter {d : Char} (hd : d.toNat < 97) (c : Char) (h : 97 ≤ c.toNat) (_ : c.toNat ≤ 122) :
    (c == d) = false := by
  rw [beq_eq_false_iff_ne]
  rintro rfl
  omega

/-! ## Canonical names -/

/-- A canonical name does not end in a dot. -/
theorem rdropWhile_canonical (tok : Name) : (canonical tok).rdropWhile (· == '.') = canonical tok := by
  rw [List.rdropWhile_eq_self_iff]
  intro hne
  have hne' : tok.rdropWhile (· == '.') ≠ [] := fun h => hne (by rw [canonical, h]; rfl)
  have hlast := List.rdropWhile_last_not (· == '.') tok hne'
  simp only [canonical, List.getLast_map]
  rw [Bool.not_eq_true] at hlast ⊢
  exact toLower_false (ne_of_letter (by decide)) hlast

/-- A name that is its own canonical form, after a dot. -/
theorem canonical_append_dot (tok : Name) : canonical (canonical tok ++ ['.']) = canonical tok := by
  rw [canonical, List.rdropWhile_concat_pos _ _ _ (by rfl), rdropWhile_canonical, canonical,
    List.map_map]
  exact List.map_congr_left fun c _ => toLower_toLower c

/-- A token: what lies between white space. -/
def IsToken (tok : Name) : Prop := tok ≠ [] ∧ ∀ c ∈ tok, isAsciiWhitespace c = false

/-- A name that can be written, with a dot after it. -/
structure WritableHost (host : Name) : Prop where
  canonical : canonical (host ++ ['.']) = host
  token : IsToken (host ++ ['.'])

/-- A name that can begin a line. -/
structure WritableName (name : Name) : Prop extends WritableHost name where
  head : ∀ c, (name ++ ['.']).head? = some c → isWhitespace c = false ∧ c ≠ ';'

theorem writableHost_canonical {tok : Name} (h : IsToken tok) : WritableHost (canonical tok) := by
  refine ⟨canonical_append_dot tok, by simp, fun c hc => ?_⟩
  rcases List.mem_append.mp hc with hc | hc
  · obtain ⟨d, hd, rfl⟩ := List.mem_map.mp hc
    exact toLower_false (fun c h h' => isAsciiWhitespace_false (isWhitespace_letter c h h'))
      (h.2 d ((List.rdropWhile_prefix _ _).subset hd))
  · rw [List.mem_singleton.mp hc]
    decide

theorem writableName_canonical {tok : Name} (h : IsToken tok)
    (hhead : ∀ c, tok.head? = some c → isWhitespace c = false ∧ c ≠ ';') :
    WritableName (canonical tok) := by
  refine ⟨writableHost_canonical h, fun c hc => ?_⟩
  cases hr : tok.rdropWhile (· == '.') with
  | nil =>
    rw [canonical, hr] at hc
    cases hc
    decide
  | cons d rest =>
    rw [canonical, hr] at hc
    cases hc
    have hd : tok.head? = some d := by
      obtain ⟨tail, ht⟩ := List.rdropWhile_prefix (· == '.') tok
      rw [← ht, hr]
      rfl
    obtain ⟨hw, hs⟩ := hhead d hd
    refine ⟨toLower_false isWhitespace_letter hw, ?_⟩
    rw [← beq_eq_false_iff_ne] at hs ⊢
    exact toLower_false (ne_of_letter (by decide)) hs

/-! ## Reading a line -/

theorem head?_trim {s : Name} {c : Char} (h : (trim s).head? = some c) : isWhitespace c = false := by
  obtain ⟨tail, ht⟩ := List.rdropWhile_prefix isWhitespace (s.dropWhile isWhitespace)
  have hd : (s.dropWhile isWhitespace).head? = some c := by
    rw [← ht, List.head?_append]
    exact congrArg (Option.or · _) h
  have hnot := List.head?_dropWhile_not isWhitespace s
  rw [hd] at hnot
  simpa using hnot

theorem isToken_of_mem {s tok : Name} (h : tok ∈ splitAsciiWhitespace s) : IsToken tok := by
  rw [splitAsciiWhitespace, List.mem_filter] at h
  refine ⟨by simpa using h.2, fun c hc => ?_⟩
  have hmem := h.1
  clear h
  induction s generalizing tok with
  | nil =>
    rw [List.splitOnP_nil, List.mem_singleton] at hmem
    rw [hmem] at hc
    cases hc
  | cons x s ih =>
    rw [List.splitOnP_cons_eq_if_modifyHead] at hmem
    split at hmem
    next =>
      rcases List.mem_cons.mp hmem with rfl | hmem
      · cases hc
      · exact ih hc hmem
    next hx =>
      cases hs : s.splitOnP isAsciiWhitespace with
      | nil => exact absurd hs (List.splitOnP_ne_nil _ _)
      | cons head tail =>
        rw [hs, List.modifyHead_cons] at hmem
        rcases List.mem_cons.mp hmem with rfl | hmem
        · rcases List.mem_cons.mp hc with rfl | hc
          · simpa using hx
          · exact ih hc (by simp [hs])
        · exact ih hc (by simp [hs, hmem])

/-- The first token begins where a trimmed line does. -/
theorem head?_split {s tok : Name} {toks : List Name} {c : Char} (hc : s.head? = some c)
    (hw : isAsciiWhitespace c = false) (h : splitAsciiWhitespace s = tok :: toks) :
    tok.head? = some c := by
  cases s with
  | nil => cases hc
  | cons d s =>
    cases hc
    rw [splitAsciiWhitespace, List.splitOnP_cons_eq_if_modifyHead, if_neg (by simp [hw])] at h
    cases hs : s.splitOnP isAsciiWhitespace with
    | nil => exact absurd hs (List.splitOnP_ne_nil _ _)
    | cons head tail =>
      rw [hs, List.modifyHead_cons, List.filter_cons_of_pos (by simp)] at h
      cases h
      rfl

/-- **What the parser lets through** can be written back. -/
theorem lineFields_writable {line nameRaw rdata : Name} {kind : RecordType}
    (h : lineFields line = some (nameRaw, kind, rdata)) :
    WritableName (canonical nameRaw) ∧ WritableHost (canonical rdata) := by
  unfold lineFields at h
  simp only at h
  split at h
  next => cases h
  next hstart =>
    split at h
    next => cases h
    next tok fields hsplit =>
      split at h
      next rtypeRaw rd rest hdrop =>
        obtain ⟨k, -, he⟩ := Option.map_eq_some_iff.mp h
        cases he
        have hrd : rdata ∈ fields.dropWhile fun tok => isTtl tok || isClass tok := by
          rw [hdrop]
          simp
        have hrd : rdata ∈ fields := (List.dropWhile_sublist _).subset hrd
        have hmem : ∀ t ∈ nameRaw :: fields, IsToken t := fun t ht => isToken_of_mem (hsplit ▸ ht)
        refine ⟨writableName_canonical (hmem _ (by simp)) fun c hc => ?_,
          writableHost_canonical (hmem _ (by simp [hrd]))⟩
        simp only [Bool.or_eq_true, List.isEmpty_iff, beq_iff_eq, not_or] at hstart
        obtain ⟨d, hd⟩ := Option.ne_none_iff_exists'.mp fun hn =>
          hstart.1 (List.head?_eq_none_iff.mp hn)
        have hw := head?_trim hd
        have hcd := head?_split hd (isAsciiWhitespace_false hw) hsplit
        rw [hc] at hcd
        cases hcd
        exact ⟨hw, fun he => hstart.2 (by rw [hd, he])⟩
      next => cases h

/-! ## Writing a line -/

theorem trim_eq_self {s : Name} (hhead : ∀ c, s.head? = some c → isWhitespace c = false)
    (hlast : ∀ c, s.getLast? = some c → isWhitespace c = false) : trim s = s := by
  have hdrop : s.dropWhile isWhitespace = s := by
    cases s with
    | nil => rfl
    | cons c s => exact List.dropWhile_cons_of_neg (by simp [hhead c rfl])
  rw [trim, hdrop, List.rdropWhile_eq_self_iff]
  intro hne
  simp [hlast _ (List.getLast?_eq_some_getLast hne)]

theorem splitAsciiWhitespace_token {tok : Name} (h : IsToken tok) :
    splitAsciiWhitespace tok = [tok] := by
  rw [splitAsciiWhitespace, List.splitOnP_eq_singleton h.2,
    List.filter_cons_of_pos (by simpa using h.1), List.filter_nil]

theorem splitAsciiWhitespace_append {tok s : Name} {sep : Char} (h : IsToken tok)
    (hsep : isAsciiWhitespace sep = true) :
    splitAsciiWhitespace (tok ++ sep :: s) = tok :: splitAsciiWhitespace s := by
  rw [splitAsciiWhitespace, List.splitOnP_append_cons_of_forall_mem h.2 sep hsep,
    List.filter_cons_of_pos (by simpa using h.1)]
  rfl

/-- The word of a type. -/
def RecordType.text : RecordType → Name
  | .a => "a".toList
  | .aaaa => "aaaa".toList
  | .ns => "ns".toList

theorem recordType_text (kind : RecordType) : recordType kind.text = some kind := by
  cases kind <;> decide +kernel

theorem isToken_text (kind : RecordType) : IsToken kind.text := by
  cases kind <;> exact ⟨by simp [RecordType.text], by simp [RecordType.text, isAsciiWhitespace]⟩

/-- A line that is written, without its end. -/
def lineBody (name : Name) (kind : RecordType) (rdata : Name) : Name :=
  (name ++ ['.']) ++ '\t' ::
    ("3600".toList ++ '\t' :: ("in".toList ++ '\t' :: (kind.text ++ '\t' :: rdata)))

theorem recordLine_eq (name : Name) (kind : RecordType) (rdata : Name) :
    recordLine name kind.text rdata = lineBody name kind rdata ++ ['\n'] := by
  have h : ".\t3600\tin\t".toList =
    ['.'] ++ '\t' :: ("3600".toList ++ '\t' :: ("in".toList ++ ['\t'])) := by decide
  rw [recordLine, lineBody, h]
  simp

/-- **What the parser reads of a line that is written.** -/
theorem lineFields_body {name rdata : Name} (kind : RecordType) (hname : WritableName name)
    (hrd : IsToken rdata) (hlast : ∀ c, rdata.getLast? = some c → isWhitespace c = false) :
    lineFields (lineBody name kind rdata) = some (name ++ ['.'], kind, rdata) := by
  obtain ⟨d, hd⟩ : ∃ d, (name ++ ['.']).head? = some d := by cases name <;> exact ⟨_, rfl⟩
  have hhead : (lineBody name kind rdata).head? = some d := by rw [lineBody, List.head?_append, hd]; rfl
  obtain ⟨hw, hs⟩ := hname.head d hd
  obtain ⟨e, he⟩ := Option.ne_none_iff_exists'.mp fun hn => hrd.1 (List.getLast?_eq_none_iff.mp hn)
  have hend : (lineBody name kind rdata).getLast? = some e := by simp [lineBody, List.getLast?_cons, he]
  have htrim : trim (lineBody name kind rdata) = lineBody name kind rdata :=
    trim_eq_self (fun c hc => by rw [hhead] at hc; cases hc; exact hw) fun c hc => by
      rw [hend] at hc
      cases hc
      exact hlast e he
  have hsplit : splitAsciiWhitespace (lineBody name kind rdata) =
      [name ++ ['.'], "3600".toList, "in".toList, kind.text, rdata] := by
    rw [lineBody, splitAsciiWhitespace_append hname.token (by decide),
      splitAsciiWhitespace_append ⟨by simp, by simp [isAsciiWhitespace]⟩ (by decide),
      splitAsciiWhitespace_append ⟨by simp, by simp [isAsciiWhitespace]⟩ (by decide),
      splitAsciiWhitespace_append (isToken_text kind) (by decide), splitAsciiWhitespace_token hrd]
  have hdrop : ["3600".toList, "in".toList, kind.text, rdata].dropWhile
      (fun tok => isTtl tok || isClass tok) =
      [kind.text, rdata] := by
    rw [List.dropWhile_cons_of_pos (by decide +kernel), List.dropWhile_cons_of_pos (by decide +kernel),
      List.dropWhile_cons_of_neg]
    cases kind <;> decide +kernel
  have hstart : ((lineBody name kind rdata).isEmpty ||
      (lineBody name kind rdata).head? == some ';') = false := by
    have hne : lineBody name kind rdata ≠ [] := fun hn => by rw [hn] at hhead; cases hhead
    rw [hhead]
    simp [hne, hs]
  unfold lineFields
  simp only [htrim, hstart, hsplit, hdrop, recordType_text]
  rfl

theorem newline_notMem_body {name rdata : Name} (kind : RecordType) (hname : WritableName name)
    (hrd : IsToken rdata) :
    '\n' ∉ lineBody name kind rdata := by
  have hnot : ∀ {tok : Name}, IsToken tok → '\n' ∉ tok :=
    fun htok hmem => absurd (htok.2 _ hmem) (by decide)
  have h1 := hnot hname.token
  have h2 := hnot (isToken_text kind)
  have h3 := hnot hrd
  have h4 : '\n' ∉ "3600".toList := by decide
  have h5 : '\n' ∉ "in".toList := by decide
  simp only [lineBody, List.mem_append, List.mem_cons, not_or]
  simp only [List.mem_append, not_or] at h1
  exact ⟨by simpa using h1, by decide, h4, by decide, h5, by decide, h2, by decide, h3⟩

end Dns

end Dnspir
