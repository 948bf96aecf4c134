import Katcp.KurlScan

namespace Katcp

/-- What `copy_kurl_string_katcp` prints; without a host `%s` is given a null pointer. -/
def kurlText (ku : KatcpUrl) : Text :=
  match ku.uCmd with
  | some cmd => ku.uScheme ++ textOf "://" ++ cmd
  | none => copyKurlString ku.uScheme (ku.uHost.getD (textOf "(null)")) ku.uPort

/-- The loop that looks for a path, and the variable that it leaves. -/
def foundPath (path : Text) : Nat → List Text → Nat
  | _, [] => 0
  | i, p :: paths => if p = path then i else foundPath path (i + 1) paths

def copyKurlStringKatcp (ku : KatcpUrl) (path : Option Text) : Option Text :=
  let str := kurlText ku
  match path with
  | none => some str
  | some path =>
    let found := foundPath path 0 ku.uPath
    if found = 0 then none else ku.uPath[found]?.map (str ++ ·)

section

variable {ku : KatcpUrl} {paths : List Text} {path : Text}

theorem foundPath_eq {i : Nat} (h : path ∈ paths) : foundPath path i paths = i + paths.idxOf path := by
  induction paths generalizing i with
  | nil => cases h
  | cons p paths ih =>
    rw [foundPath, List.idxOf_cons]
    by_cases hp : p = path
    · simp [hp]
    · have hmem : path ∈ paths := (List.mem_cons.mp h).resolve_left (fun he => hp he.symm)
      have hbeq : (p == path) = false := by simpa using hp
      rw [if_neg hp, hbeq, ih hmem]
      simp
      omega

theorem foundPath_absent {i : Nat} (h : path ∉ paths) : foundPath path i paths = 0 := by
  induction paths generalizing i with
  | nil => rfl
  | cons p paths ih =>
    have hne : p ≠ path := by
      rintro rfl
      exact h List.mem_cons_self
    rw [foundPath, if_neg hne, ih (fun hm => h (List.mem_cons_of_mem p hm))]

/-- A path is printed behind the URL if it is one of the URL's, and refused if it is not, exactly
where it is not the first of them. -/
theorem kurl_path_iff (ku : KatcpUrl) (path : Text) :
    copyKurlStringKatcp ku (some path) =
      (if path ∈ ku.uPath then (copyKurlStringKatcp ku none).map (· ++ path) else none) ↔
        ku.uPath.head? ≠ some path := by
  rw [copyKurlStringKatcp, copyKurlStringKatcp]
  by_cases hmem : path ∈ ku.uPath
  · rw [if_pos hmem, foundPath_eq hmem, Nat.zero_add]
    have hlt := List.idxOf_lt_length_of_mem hmem
    have hat : ku.uPath[ku.uPath.idxOf path]? = some path := by
      rw [List.getElem?_eq_getElem hlt, List.getElem_idxOf hlt]
    by_cases hzero : ku.uPath.idxOf path = 0
    · rw [if_pos hzero]
      rw [hzero, ← List.head?_eq_getElem?] at hat
      exact iff_of_false (by simp) (not_not.mpr hat)
    · rw [if_neg hzero, hat]
      refine iff_of_true rfl (fun hhead => hzero ?_)
      obtain ⟨rest, hrest⟩ := List.head?_eq_some_iff.mp hhead
      rw [hrest, List.idxOf_cons_self]
  · rw [if_neg hmem, foundPath_absent hmem, if_pos rfl]
    exact iff_of_true rfl (fun hhead => hmem (List.mem_of_mem_head? hhead))

/-- The only path of a URL is said not to be there. -/
theorem first_path_missing : ¬ ∀ (ku : KatcpUrl) (path : Text), copyKurlStringKatcp ku (some path) =
    if path ∈ ku.uPath then (copyKurlStringKatcp ku none).map (· ++ path) else none := by
  intro h
  have hpath := h (createKurl (textOf "katcp") (textOf "roach") 7147 (some (textOf "?disconnect")))
    (textOf "?disconnect")
  exact absurd hpath (by decide)

end

section

variable {seg url rest name host cmd : Text} {c : Byte} {v : Int} {j : Nat} {ku : KatcpUrl}

theorem forall_snoc {good : Byte → Prop} (hseg : ∀ c ∈ seg, good c) (hc : good c) : ∀ d ∈ seg ++ [c], good d := by
  intro d hd
  rcases List.mem_append.mp hd with hd | hd
  · exact hseg d hd
  · rwa [List.mem_singleton.mp hd]

theorem mem_of_snoc {d : Byte} (h : c ∈ seg ++ [d] ∨ c ∈ url) : c ∈ seg ∨ c ∈ d :: url := by
  simpa [or_assoc] using h

theorem decimalText_negSucc (n : Nat) : decimalText (Int.negSucc n) = byte '-' :: textOf (toString (n + 1)) := by
  have hsplit : decimalText (Int.negSucc n) = textOf ("-" ++ toString (n + 1)) := rfl
  rw [hsplit, textOf, textOf, String.toList_append, List.map_append]
  rfl

theorem decimalText_chars (h : c ∈ decimalText v) : isDigit c = true ∨ c = byte '-' := by
  cases v with
  | ofNat n => exact Or.inl (decimal_digits h)
  | negSucc n =>
    rw [decimalText_negSucc] at h
    rcases List.mem_cons.mp h with h | h
    · exact Or.inr h
    · exact Or.inl (decimal_digits h)

/-- `atoi` of a number that an `int` holds, where no blank is before it. -/
theorem atoi_digits {n : Nat} (h : ∀ c ∈ seg, isDigit c = true) (hne : seg ≠ []) (hn : digitsValue seg = n) :
    (n < 2 ^ 31 → atoi seg = n) ∧ (n ≤ 2 ^ 31 → atoi (byte '-' :: seg) = -n) := by
  have htake : seg.takeWhile isDigit = seg := by
    have hspan := (@span_digits seg [] h (by simp)).1
    rwa [List.append_nil] at hspan
  obtain ⟨d, ds, rfl⟩ := List.exists_cons_of_ne_nil hne
  have hd := h d List.mem_cons_self
  have hspace : (d :: ds).dropWhile isSpace = d :: ds := by
    rw [List.dropWhile_cons, isSpace_of_digit hd]
    rfl
  have hminus : d ≠ byte '-' := by
    rintro rfl
    cases hd
  have hplus : d ≠ byte '+' := by
    rintro rfl
    cases hd
  constructor
  · intro hsmall
    have hsign : afterSign (d :: ds) = d :: ds := by simp [afterSign, hminus, hplus]
    rw [atoi, hspace, hsign, htake, hn, if_neg (by simp [hminus]),
      show max (-(2 ^ 63) : Int) (min n (2 ^ 63 - 1)) = n by omega]
    exact Int.bmod_eq_of_le (by omega) (by omega)
  · intro hsmall
    have hspace' : (byte '-' :: d :: ds).dropWhile isSpace = byte '-' :: d :: ds := by
      rw [List.dropWhile_cons, if_neg (by decide)]
    have hsign : afterSign (byte '-' :: d :: ds) = d :: ds := by
      rw [afterSign, if_pos (by decide)]
    rw [atoi, hspace', hsign, htake, hn, if_pos List.head?_cons,
      show max (-(2 ^ 63) : Int) (min (-n) (2 ^ 63 - 1)) = -n by omega]
    exact Int.bmod_eq_of_le (by omega) (by omega)

theorem atoi_decimalText (hlow : -2 ^ 31 ≤ v) (hhigh : v < 2 ^ 31) : atoi (decimalText v) = v := by
  cases v with
  | ofNat n =>
    have hn : n < 2 ^ 31 := by
      have : (n : Int) < 2 ^ 31 := hhigh
      omega
    exact (atoi_digits (fun c hc => decimal_digits hc) decimal_ne_nil decimal_value).1 hn
  | negSucc n =>
    have hn : n + 1 ≤ 2 ^ 31 := by omega
    rw [decimalText_negSucc, (atoi_digits (fun c hc => decimal_digits hc) decimal_ne_nil decimal_value).2 hn]
    omega

theorem atoi_range (s : Text) : -2 ^ 31 ≤ atoi s ∧ atoi s < 2 ^ 31 := by
  rw [atoi]
  constructor
  · exact Int.le_bmod (by decide)
  · exact Int.bmod_lt (by decide)

theorem scanScheme_part {r : Text × Text} (h : scanScheme seg url = some r) (hseg : byte ':' ∉ seg) :
    byte ':' ∉ r.1 ∧ ∀ c ∈ r.1, c ∈ seg ∨ c ∈ url := by
  induction url generalizing seg with
  | nil => cases h
  | cons d url ih =>
    rw [scanScheme] at h
    split at h
    next =>
      cases h
      exact ⟨hseg, fun c hc => Or.inl hc⟩
    next hd =>
      obtain ⟨hcolon, hfrom⟩ := ih h (by simp [hseg, Ne.symm hd])
      exact ⟨hcolon, fun c hc => mem_of_snoc (hfrom c hc)⟩

theorem scanScheme_scheme (h : byte ':' ∉ name) :
    scanScheme seg (name ++ byte ':' :: rest) = some (seg ++ name, rest) := by
  induction name generalizing seg with
  | nil => simp [scanScheme]
  | cons d name ih =>
    obtain ⟨hd, hname⟩ : byte ':' ≠ d ∧ byte ':' ∉ name := by simpa using h
    rw [List.cons_append, scanScheme, if_neg (Ne.symm hd), ih hname, List.append_assoc]
    rfl

theorem scanScheme_rest {r : Text × Text} (h : scanScheme seg url = some r) (hc : c ∈ r.2) : c ∈ url := by
  induction url generalizing seg with
  | nil => cases h
  | cons d url ih =>
    rw [scanScheme] at h
    split at h
    next =>
      cases h
      exact List.mem_cons_of_mem d hc
    next => exact List.mem_cons_of_mem d (ih h)

theorem scanPort_port (seg url : Text) : ∃ t, (scanPort seg url).1 = atoi t := by
  induction url generalizing seg with
  | nil => exact ⟨seg, rfl⟩
  | cons d url ih =>
    rw [scanPort]
    split
    next => exact ih []
    next =>
      split
      next => exact ⟨seg, rfl⟩
      next =>
        split
        next => exact ⟨seg, rfl⟩
        next => exact ih (seg ++ [d])

/-- Neither of the characters that end a host is in one. -/
def HostChar (c : Byte) : Prop := c ≠ byte '/' ∧ c ≠ byte ':'

theorem scanHost_part {r : Text × Int × List Text} (h : scanHost seg url = some r) (hseg : ∀ c ∈ seg, HostChar c) :
    (∀ c ∈ r.1, HostChar c ∧ (c ∈ seg ∨ c ∈ url)) ∧ ∃ t, r.2.1 = atoi t := by
  induction url generalizing seg with
  | nil => cases h
  | cons d url ih =>
    rw [scanHost] at h
    split at h
    next =>
      obtain ⟨hfrom, hport⟩ := ih h (fun c hc => by cases hc)
      refine ⟨fun c hc => ⟨(hfrom c hc).1, Or.inr ?_⟩, hport⟩
      exact List.mem_cons_of_mem d ((hfrom c hc).2.resolve_left (by simp))
    next hslash =>
      split at h
      next =>
        cases h
        exact ⟨fun c hc => ⟨hseg c hc, Or.inl hc⟩, scanPort_port [] url⟩
      next hcolon =>
        obtain ⟨hfrom, hport⟩ := ih h (forall_snoc hseg ⟨hslash, hcolon⟩)
        exact ⟨fun c hc => ⟨(hfrom c hc).1, mem_of_snoc (hfrom c hc).2⟩, hport⟩

theorem scanHost_host (h : ∀ c ∈ host, HostChar c) :
    scanHost seg (host ++ byte ':' :: rest) = some (seg ++ host, scanPort [] rest) := by
  induction host generalizing seg with
  | nil =>
    rw [List.nil_append, scanHost, if_neg (by decide), if_pos rfl, List.append_nil]
  | cons d host ih =>
    obtain ⟨hslash, hcolon⟩ := h d List.mem_cons_self
    rw [List.cons_append, scanHost, if_neg hslash, if_neg hcolon, ih (fun c hc => h c (List.mem_cons_of_mem d hc)),
      List.append_assoc]
    rfl

theorem scanPort_digits (h : ∀ c ∈ name, isDigit c = true ∨ c = byte '-') :
    scanPort seg (name ++ byte '/' :: rest) = (atoi (seg ++ name), [scanPath [] rest]) := by
  induction name generalizing seg with
  | nil => rw [List.nil_append, scanPort, if_neg (by decide), if_pos rfl, List.append_nil]
  | cons d name ih =>
    have hd : d ≠ byte ':' ∧ d ≠ byte '/' ∧ isLineEnd d = false := by
      rcases h d List.mem_cons_self with hd | rfl
      · refine ⟨?_, ?_, ?_⟩
        · rintro rfl
          cases hd
        · rintro rfl
          cases hd
        · simp only [isLineEnd, Bool.or_eq_false_iff, decide_eq_false_iff_not]
          constructor
          · rintro rfl
            cases hd
          · rintro rfl
            cases hd
      · decide
    rw [List.cons_append, scanPort, if_neg hd.1, if_neg hd.2.1, if_neg (ne_true_of_eq_false hd.2.2),
      ih (fun c hc => h c (List.mem_cons_of_mem d hc)), List.append_assoc]
    rfl

/-- None of the characters that end a command is in one. -/
def CmdChar (c : Byte) : Prop := c ≠ byte '#' ∧ isLineEnd c = false

theorem scanCmd_part (hseg : ∀ c ∈ seg, CmdChar c) :
    ∀ c ∈ (scanCmd j seg url).1, CmdChar c ∧ (c ∈ seg ∨ c ∈ url) := by
  induction url generalizing seg j with
  | nil => exact fun c hc => ⟨hseg c hc, Or.inl hc⟩
  | cons d url ih =>
    intro c hc
    have hsnoc : CmdChar d → ∀ k, c ∈ (scanCmd k (seg ++ [d]) url).1 → CmdChar c ∧ (c ∈ seg ∨ c ∈ d :: url) := by
      intro hd k hc
      obtain ⟨hchar, hfrom⟩ := ih (forall_snoc hseg hd) c hc
      exact ⟨hchar, mem_of_snoc hfrom⟩
    rw [scanCmd] at hc
    split at hc
    next hslash =>
      split at hc
      next =>
        obtain ⟨hchar, hfrom⟩ := ih (fun c hc => by cases hc) c hc
        exact ⟨hchar, Or.inr (List.mem_cons_of_mem d (hfrom.resolve_left (by simp)))⟩
      next => exact hsnoc (hslash ▸ ⟨by decide, by decide⟩) _ hc
    next =>
      split at hc
      next => exact ⟨hseg c hc, Or.inl hc⟩
      next hend =>
        simp only [Bool.or_eq_true, decide_eq_true_eq, not_or, Bool.not_eq_true] at hend
        exact hsnoc hend _ hc

theorem scanCmd_cmd (hj : 2 ≤ j) (h : ∀ c ∈ cmd, CmdChar c) : scanCmd j seg cmd = (seg ++ cmd, []) := by
  induction cmd generalizing seg j with
  | nil => simp [scanCmd]
  | cons d cmd ih =>
    have hrest : ∀ c ∈ cmd, CmdChar c := fun c hc => h c (List.mem_cons_of_mem d hc)
    obtain ⟨hhash, hend⟩ := h d List.mem_cons_self
    rw [scanCmd]
    split
    next =>
      rw [if_neg (by omega), ih (by omega) hrest, List.append_assoc]
      rfl
    next =>
      rw [if_neg (by simp [hhash, hend]), ih hj hrest, List.append_assoc]
      rfl

theorem createKurl_cases (h : createKurlFromString url = some ku) :
    ∃ rest, scanScheme [] url = some (ku.uScheme, rest) ∧
    ((∃ host, ku.uHost = some host ∧ ku.uCmd = none ∧
        (ku.uScheme.map toLower = textOf "katcp" ∨ ku.uScheme.map toLower = textOf "xport") ∧
        scanHost [] rest = some (host, ku.uPort, ku.uPath)) ∨
      ku.uHost = none ∧ ku.uPort = 0 ∧ ku.uScheme.map toLower = textOf "exec" ∧
        ku.uCmd = some (scanCmd 0 [] rest).1) := by
  obtain ⟨⟨scheme, rest⟩, hscheme, h⟩ := Option.bind_eq_some_iff.mp h
  dsimp only at h
  split at h
  next hhost =>
    obtain ⟨⟨host, port, path⟩, hscan, rfl⟩ := Option.map_eq_some_iff.mp h
    exact ⟨rest, hscheme, Or.inl ⟨host, rfl, rfl, hhost, hscan⟩⟩
  next =>
    split at h
    next hexec =>
      cases h
      exact ⟨rest, hscheme, Or.inr ⟨rfl, rfl, hexec, rfl⟩⟩
    next => cases h

/-- The printed URL is read as the same. -/
theorem kurlText_read (h : createKurlFromString url = some ku) : ∃ kv, createKurlFromString (kurlText ku) = some kv ∧
    kv.uScheme = ku.uScheme ∧ kv.uHost = ku.uHost ∧ kv.uPort = ku.uPort ∧ kv.uCmd = ku.uCmd := by
  obtain ⟨rest, hscheme, hku⟩ := createKurl_cases h
  have hcolon := (scanScheme_part hscheme (by simp)).1
  have hslashes : textOf "://" = byte ':' :: textOf "//" := by decide
  rcases hku with ⟨host, hhost, hcmd, hkatcp, hscan⟩ | ⟨hhost, hport, hexec, hcmd⟩
  · obtain ⟨hchars, t, ht⟩ := scanHost_part hscan (fun c hc => by cases hc)
    have ht : ku.uPort = atoi t := ht
    have hrange := ht ▸ atoi_range t
    have htext : kurlText ku = ku.uScheme ++ byte ':' :: (textOf "//" ++
        (host ++ byte ':' :: (decimalText ku.uPort ++ byte '/' :: []))) := by
      have hmid : textOf ":" = [byte ':'] := by decide
      have hend : textOf "/" = [byte '/'] := by decide
      rw [kurlText, hcmd]
      simp only [hhost, copyKurlString, Option.getD_some, hslashes, hmid, hend, List.append_assoc, List.cons_append,
        List.nil_append]
    have hread : scanHost [] (textOf "//" ++ (host ++ byte ':' :: (decimalText ku.uPort ++ byte '/' :: []))) =
        some (host, ku.uPort, [scanPath [] []]) := by
      have hskip : ∀ more, scanHost [] (textOf "//" ++ more) = scanHost [] more := fun more => rfl
      rw [hskip, scanHost_host (fun c hc => (hchars c hc).1), scanPort_digits (fun c hc => decimalText_chars hc),
        List.nil_append, List.nil_append, atoi_decimalText hrange.1 hrange.2]
    rw [htext, createKurlFromString, scanScheme_scheme hcolon, List.nil_append, Option.bind_some]
    dsimp only
    rw [if_pos hkatcp, hread]
    exact ⟨_, rfl, rfl, hhost.symm, rfl, hcmd.symm⟩
  · have hchars : ∀ c ∈ (scanCmd 0 [] rest).1, CmdChar c ∧ (c ∈ ([] : Text) ∨ c ∈ rest) :=
      scanCmd_part (fun c hc => by cases hc)
    have htext : kurlText ku = ku.uScheme ++ byte ':' :: (textOf "//" ++ (scanCmd 0 [] rest).1) := by
      rw [kurlText, hcmd]
      simp only [hslashes, List.append_assoc, List.cons_append]
    have hread : scanCmd 0 [] (textOf "//" ++ (scanCmd 0 [] rest).1) = ((scanCmd 0 [] rest).1, []) := by
      have hskip : ∀ more, scanCmd 0 [] (textOf "//" ++ more) = scanCmd 2 [] more := fun more => rfl
      rw [hskip, scanCmd_cmd (Nat.le_refl 2) (fun c hc => (hchars c hc).1), List.nil_append]
    have hother : ¬ (ku.uScheme.map toLower = textOf "katcp" ∨ ku.uScheme.map toLower = textOf "xport") := by
      rw [hexec]
      decide
    rw [htext, createKurlFromString, scanScheme_scheme hcolon, List.nil_append, Option.bind_some]
    dsimp only
    rw [if_neg hother, if_pos hexec, hread]
    exact ⟨_, rfl, rfl, hhost.symm, hport.symm, hcmd.symm⟩

/-- What is printed of a URL is a string. -/
theorem kurlText_plain (hurl : (0 : Byte) ∉ url) (h : createKurlFromString url = some ku) :
    (0 : Byte) ∉ kurlText ku := by
  obtain ⟨rest, hscheme, hku⟩ := createKurl_cases h
  have hplain : (0 : Byte) ∉ ku.uScheme := fun hc =>
    hurl (((scanScheme_part hscheme (by simp)).2 0 hc).resolve_left (by simp))
  have hrest : (0 : Byte) ∉ rest := fun hc => hurl (scanScheme_rest hscheme hc)
  have hslashes : (0 : Byte) ∉ textOf "://" := by decide
  rcases hku with ⟨host, hhost, hcmd, _, hscan⟩ | ⟨_, _, _, hcmd⟩
  · have hhostly : (0 : Byte) ∉ host := fun hc =>
      hrest (((scanHost_part hscan (fun c hc => by cases hc)).1 0 hc).2.resolve_left (by simp))
    have hport : (0 : Byte) ∉ decimalText ku.uPort := fun hc => absurd (decimalText_chars hc) (by decide)
    have hcolon : (0 : Byte) ∉ textOf ":" := by decide
    have hslash : (0 : Byte) ∉ textOf "/" := by decide
    rw [kurlText, hcmd]
    simp only [hhost, copyKurlString, Option.getD_some, List.mem_append, hplain, hslashes, hhostly, hcolon, hport,
      hslash, or_self, not_false_eq_true]
  · have hcommand : (0 : Byte) ∉ (scanCmd 0 [] rest).1 := fun hc =>
      hrest (((scanCmd_part (fun c hc => by cases hc) 0 hc).2).resolve_left (by simp))
    rw [kurlText, hcmd]
    simp only [List.mem_append, hplain, hslashes, hcommand, or_self, not_false_eq_true]

/-- A string of any length is read in a turn for each of its characters, none of them behind the
terminating null; what is printed of the URL is read as a URL with the same parts. -/
theorem kurl_read_printed (hurl : (0 : Byte) ∉ url) {turns : Nat} (hturns : url.length + 2 ≤ turns) :
    ∃ r, createKurlFromStringKatcp url turns = some r ∧ ∀ ku, r = some ku →
      ∃ text, copyKurlStringKatcp ku none = some text ∧ ∀ more, text.length + 2 ≤ more →
        ∃ kv, createKurlFromStringKatcp text more = some (some kv) ∧ kv.uScheme = ku.uScheme ∧
          kv.uHost = ku.uHost ∧ kv.uPort = ku.uPort ∧ kv.uCmd = ku.uCmd := by
  refine ⟨_, createKurl_answers hurl hturns, fun ku hku => ⟨kurlText ku, rfl, fun more hmore => ?_⟩⟩
  obtain ⟨kv, hkv, hsame⟩ := kurlText_read hku
  exact ⟨kv, by rw [createKurl_answers (kurlText_plain hurl hku) hmore, hkv], hsame⟩

/-- A port that is not written the way it is printed. -/
theorem kurl_read_printed_port : ∃ ku kv text,
    createKurlFromStringKatcp (textOf "katcp://roach:+0071") 40 = some (some ku) ∧
    copyKurlStringKatcp ku none = some text ∧ createKurlFromStringKatcp text 40 = some (some kv) ∧ kv.uPort = 71 := by
  have hurl : (0 : Byte) ∉ textOf "katcp://roach:+0071" := by decide
  have hturns : (textOf "katcp://roach:+0071").length + 2 ≤ 40 := by decide
  obtain ⟨r, hr, hprinted⟩ := kurl_read_printed hurl hturns
  have hku : createKurlFromStringKatcp (textOf "katcp://roach:+0071") 40 =
      some (some ⟨textOf "katcp://roach:+0071", textOf "katcp", some (textOf "roach"), 71, [], none⟩) := by decide
  cases hr.symm.trans hku
  obtain ⟨text, htext, hread⟩ := hprinted _ rfl
  cases htext
  obtain ⟨kv, hkv, _, _, hport, _⟩ := hread 40 (by decide)
  exact ⟨_, kv, _, hku, rfl, hkv, hport⟩

end

end Katcp
