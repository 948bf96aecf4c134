import Katcp.Kurl

namespace Katcp

inductive KurlState where
  | scheme
  | host
  | port
  | path
  | cmd
  | hash
  | finished
  deriving DecidableEq, Repr

/-- The variables of `create_kurl_from_string_katcp`, and what it has put into the URL. -/
structure KurlScan where
  state : KurlState := .scheme
  i : Nat := 0
  j : Nat := 0
  spos : Nat := 0
  scheme : Text := []
  host : Option Text := none
  port : Int := 0
  path : List Text := []
  cmd : Option Text := none
  deriving DecidableEq, Repr

/-- The character at an index, where the one behind the last is the terminating null; there is
nothing to be read behind that. -/
def urlChar (url : Text) (i : Nat) : Option Byte :=
  if i = url.length then some 0 else url[i]?

/-- What `strncpy` copies of the string. -/
def segment (url : Text) (spos i : Nat) : Text := (url.drop spos).take (i - spos)

def KurlScan.advance (s : KurlScan) : KurlScan := { s with i := s.i + 1 }

/-- A part of the URL has ended, and another begins. -/
def KurlScan.enter (s : KurlScan) (state : KurlState) : KurlScan :=
  { s with state := state, spos := s.i + 1, i := s.i + 1 }

def stepScheme (seg : Text) (c : Byte) (s : KurlScan) : Option KurlScan :=
  if c = 0 then none
  else if c = byte ':' then
    let s := { s with scheme := seg }
    if seg.map toLower = textOf "katcp" then some (s.enter .host)
    else if seg.map toLower = textOf "exec" then some (s.enter .cmd)
    else if seg.map toLower = textOf "xport" then some (s.enter .host)
    else none
  else some s.advance

/-- `max` is the length of the string. -/
def stepCmd (max : Nat) (seg : Text) (c : Byte) (s : KurlScan) : KurlScan :=
  if c = byte '/' then
    let s := { s with j := s.j + 1 }
    if s.j < 3 then s.enter .cmd else s.advance
  else if c = byte '#' || isLineEnd c || c = 0 then
    { s with cmd := some seg }.enter (if s.i + 1 < max then .hash else .finished)
  else s.advance

/-- The states `S_HASH` and `S_PATH`. -/
def stepPath (seg : Text) (c : Byte) (s : KurlScan) : KurlScan :=
  if isLineEnd c || c = 0 then { s with path := s.path ++ [seg], state := .finished }.advance else s.advance

def stepHost (seg : Text) (c : Byte) (s : KurlScan) : Option KurlScan :=
  if c = 0 then none
  else if c = byte '/' then some (s.enter .host)
  else if c = byte ':' then some ({ s with host := some seg }.enter .port)
  else some s.advance

def stepPort (seg : Text) (c : Byte) (s : KurlScan) : KurlScan :=
  if c = byte ':' then s.enter .port
  else if c = byte '/' then { s with port := atoi seg }.enter .path
  else if isLineEnd c || c = 0 then { s with port := atoi seg }.enter .finished
  else s.advance

/-- One turn of the loop: the URL may be refused. -/
def kurlStep (url : Text) (c : Byte) (s : KurlScan) : Option KurlScan :=
  let seg := segment url s.spos s.i
  match s.state with
  | .scheme => stepScheme seg c s
  | .cmd => some (stepCmd url.length seg c s)
  | .hash => some (stepPath seg c s)
  | .host => stepHost seg c s
  | .port => some (stepPort seg c s)
  | .path => some (stepPath seg c s)
  | .finished => some s

/-- The loop, in so many turns. There is no answer where it takes more of them, and none where it
reads behind the end of the string. -/
def kurlLoop (url : Text) : Nat → KurlScan → Option (Option KurlScan)
  | 0, _ => none
  | turns + 1, s =>
    if s.state = .finished then some (some s)
    else (urlChar url s.i).bind fun c =>
      match kurlStep url c s with
      | none => some none
      | some s => kurlLoop url turns s

def KurlScan.result (url : Text) (s : KurlScan) : KatcpUrl := ⟨url, s.scheme, s.host, s.port, s.path, s.cmd⟩

/-- `create_kurl_from_string_katcp`, index by index. -/
def createKurlFromStringKatcp (url : Text) (turns : Nat) : Option (Option KatcpUrl) :=
  (kurlLoop url turns {}).map fun r => r.map (·.result url)

section

variable {url rest seg : Text} {c : Byte} {i spos turns : Nat} {s : KurlScan}

theorem urlChar_end (h : url.drop i = []) (hi : i ≤ url.length) : urlChar url i = some 0 := by
  rw [urlChar, if_pos (Nat.le_antisymm hi (List.drop_eq_nil_iff.mp h))]

theorem drop_cons_lt (h : url.drop i = c :: rest) : i < url.length ∧ url.drop (i + 1) = rest ∧ url[i]? = some c := by
  have hlt : i < url.length := by
    by_contra hge
    rw [List.drop_eq_nil_of_le (Nat.le_of_not_lt hge)] at h
    cases h
  have hnext := List.drop_eq_getElem_cons hlt
  rw [h] at hnext
  obtain ⟨hc, hrest⟩ := List.cons.inj hnext
  exact ⟨hlt, hrest.symm, List.getElem?_eq_some_iff.mpr ⟨hlt, hc.symm⟩⟩

theorem urlChar_cons (h : url.drop i = c :: rest) : urlChar url i = some c := by
  obtain ⟨hlt, _, hc⟩ := drop_cons_lt h
  rw [urlChar, if_neg (by omega), hc]

theorem segment_snoc (h : url.drop i = c :: rest) (hs : spos ≤ i) :
    segment url spos (i + 1) = segment url spos i ++ [c] := by
  obtain ⟨_, _, hc⟩ := drop_cons_lt h
  have hat : (url.drop spos)[i - spos]? = some c := by
    rw [List.getElem?_drop, show spos + (i - spos) = i by omega, hc]
  rw [segment, segment, show i + 1 - spos = (i - spos) + 1 by omega, List.take_add_one, hat]
  rfl

theorem segment_self : segment url i i = [] := by
  rw [segment, Nat.sub_self, List.take_zero]

theorem kurlLoop_step (hstate : s.state ≠ .finished) (hc : urlChar url s.i = some c) :
    kurlLoop url (turns + 1) s = match kurlStep url c s with
      | none => some none
      | some s => kurlLoop url turns s := by
  rw [kurlLoop, if_neg hstate, hc, Option.bind_some]

theorem kurlLoop_finished (hstate : s.state = .finished) (hturns : 0 < turns) :
    kurlLoop url turns s = some (some s) := by
  obtain ⟨n, rfl⟩ := Nat.exists_eq_add_of_lt hturns
  rw [Nat.zero_add, kurlLoop, if_pos hstate]

/-- The loop answers, with the URL that `r` makes of what it has so far. -/
def Answers (url : Text) (turns : Nat) (s : KurlScan) (r : Option KatcpUrl) : Prop :=
  ∃ t, kurlLoop url turns s = some t ∧ t.map (·.result url) = r

theorem Answers.of_step {r : Option KatcpUrl} {s' : KurlScan} (hstate : s.state ≠ .finished)
    (hc : urlChar url s.i = some c) (hstep : kurlStep url c s = some s') (h : Answers url turns s' r) :
    Answers url (turns + 1) s r := by
  obtain ⟨t, ht, hr⟩ := h
  refine ⟨t, ?_, hr⟩
  rw [kurlLoop_step hstate hc, hstep]
  exact ht

theorem Answers.refused (hstate : s.state ≠ .finished) (hc : urlChar url s.i = some c)
    (hstep : kurlStep url c s = none) : Answers url (turns + 1) s none := by
  refine ⟨none, ?_, rfl⟩
  rw [kurlLoop_step hstate hc, hstep]

theorem Answers.finished (hstate : s.state = .finished) (hturns : 0 < turns) :
    Answers url turns s (some (s.result url)) :=
  ⟨some s, kurlLoop_finished hstate hturns, rfl⟩

theorem Answers.of_eq {r r' : Option KatcpUrl} (h : Answers url turns s r) (he : r = r') : Answers url turns s r' :=
  he ▸ h

/-- The scan is at an index of the string, with `rest` before it. -/
structure ScanAt (url rest : Text) (s : KurlScan) : Prop where
  ahead : url.drop s.i = rest
  inside : s.i ≤ url.length
  began : s.spos ≤ s.i
  plain : (0 : Byte) ∉ rest

theorem ScanAt.char (h : ScanAt url (c :: rest) s) : urlChar url s.i = some c ∧ c ≠ 0 :=
  ⟨urlChar_cons h.ahead, fun h0 => h.plain (h0 ▸ List.mem_cons_self)⟩

theorem ScanAt.null (h : ScanAt url [] s) : urlChar url s.i = some 0 := urlChar_end h.ahead h.inside

/-- What a turn leaves that goes on by one character. -/
theorem ScanAt.onward (h : ScanAt url (c :: rest) s) {s' : KurlScan} (hi : s'.i = s.i + 1) (hs : s'.spos ≤ s.i + 1) :
    ScanAt url rest s' := by
  obtain ⟨hlt, hrest, _⟩ := drop_cons_lt h.ahead
  exact ⟨hi ▸ hrest, by omega, hi ▸ hs, fun h0 => h.plain (List.mem_cons_of_mem c h0)⟩

theorem kurlStep_path (hstate : s.state = .path ∨ s.state = .hash) :
    s.state ≠ .finished ∧ kurlStep url c s = some (stepPath (segment url s.spos s.i) c s) := by
  rcases hstate with hstate | hstate
  · rw [kurlStep, hstate]
    exact ⟨by decide, rfl⟩
  · rw [kurlStep, hstate]
    exact ⟨by decide, rfl⟩

theorem path_answers (h : ScanAt url rest s) (hstate : s.state = .path ∨ s.state = .hash)
    (hturns : rest.length + 2 ≤ turns) : Answers url turns s (some
      { s.result url with uPath := s.path ++ [scanPath (segment url s.spos s.i) rest] }) := by
  obtain ⟨n, rfl⟩ := Nat.exists_eq_add_of_le' hturns
  induction rest generalizing s with
  | nil =>
    obtain ⟨hgo, hstep⟩ := @kurlStep_path url 0 s hstate
    exact .of_step hgo h.null hstep (.finished rfl (Nat.succ_pos _))
  | cons c rest ih =>
    obtain ⟨hc, hzero⟩ := h.char
    obtain ⟨hgo, hstep⟩ := @kurlStep_path url c s hstate
    refine .of_step hgo hc hstep ?_
    rw [stepPath, scanPath]
    by_cases hend : isLineEnd c
    · rw [if_pos (by simp [hend]), if_pos hend]
      exact .finished rfl (Nat.succ_pos _)
    · rw [if_neg (by simp [hend, hzero]), if_neg hend, ← segment_snoc h.ahead h.began]
      exact ih (s := s.advance) (h.onward rfl (Nat.le_succ_of_le h.began)) hstate (by omega)

theorem port_answers (h : ScanAt url rest s) (hstate : s.state = .port) (hpath : s.path = [])
    (hturns : rest.length + 2 ≤ turns) : Answers url turns s (some
      { s.result url with
        uPort := (scanPort (segment url s.spos s.i) rest).1
        uPath := (scanPort (segment url s.spos s.i) rest).2 }) := by
  obtain ⟨n, rfl⟩ := Nat.exists_eq_add_of_le' hturns
  have hgo : s.state ≠ .finished := by
    rw [hstate]
    decide
  induction rest generalizing s with
  | nil =>
    refine .of_step hgo h.null (by rw [kurlStep, hstate]) ?_
    rw [stepPort, if_neg (by decide), if_neg (by decide), if_pos (by decide)]
    exact (Answers.finished rfl (Nat.succ_pos _)).of_eq
      (by simp [scanPort, KurlScan.result, KurlScan.enter, hpath])
  | cons c rest ih =>
    obtain ⟨hc, hzero⟩ := h.char
    refine .of_step hgo hc (by rw [kurlStep, hstate]) ?_
    rw [stepPort, scanPort]
    split
    next =>
      have hnext := ih (s := s.enter .port) (h.onward rfl (Nat.le_refl _)) rfl hpath (by omega)
        (by simp [KurlScan.enter])
      simp only [KurlScan.enter, segment_self] at hnext
      exact hnext
    next =>
      split
      next =>
        exact (path_answers (h.onward rfl (Nat.le_refl _)) (Or.inl rfl) (Nat.le_add_left _ _)).of_eq
          (by simp [KurlScan.result, KurlScan.enter, segment_self, hpath])
      next =>
        split
        next hend =>
          have hend : isLineEnd c = true := by simpa [hzero] using hend
          rw [if_pos hend]
          exact (Answers.finished rfl (Nat.succ_pos _)).of_eq (by simp [KurlScan.result, KurlScan.enter, hpath])
        next hend =>
          have hend : isLineEnd c = false := by simpa [hzero] using hend
          rw [if_neg (ne_true_of_eq_false hend), ← segment_snoc h.ahead h.began]
          exact ih (s := s.advance) (h.onward rfl (Nat.le_succ_of_le h.began)) hstate hpath (by omega)
            (by simp [KurlScan.advance, hgo])

theorem host_answers (h : ScanAt url rest s) (hstate : s.state = .host) (hpath : s.path = [])
    (hturns : rest.length + 2 ≤ turns) : Answers url turns s
      ((scanHost (segment url s.spos s.i) rest).map fun (host, port, path) =>
        { s.result url with uHost := some host, uPort := port, uPath := path }) := by
  obtain ⟨n, rfl⟩ := Nat.exists_eq_add_of_le' hturns
  have hgo : s.state ≠ .finished := by
    rw [hstate]
    decide
  induction rest generalizing s with
  | nil => exact .refused hgo h.null (by rw [kurlStep, hstate]; rfl)
  | cons c rest ih =>
    obtain ⟨hc, hzero⟩ := h.char
    have hstep : kurlStep url c s = stepHost (segment url s.spos s.i) c s := by rw [kurlStep, hstate]
    rw [stepHost, if_neg hzero] at hstep
    rw [scanHost]
    split
    next hslash =>
      rw [if_pos hslash] at hstep
      refine .of_step hgo hc hstep ?_
      have hnext := ih (s := s.enter .host) (h.onward rfl (Nat.le_refl _)) rfl hpath (by omega)
        (by simp [KurlScan.enter])
      simp only [KurlScan.enter, segment_self] at hnext
      exact hnext
    next hslash =>
      rw [if_neg hslash] at hstep
      split
      next hcolon =>
        rw [if_pos hcolon] at hstep
        refine .of_step hgo hc hstep ?_
        have hmore : rest.length + 2 ≤ n + (rest.length + 2) := by omega
        have hnext := port_answers (s := { s with host := some (segment url s.spos s.i) }.enter .port)
          (h.onward rfl (Nat.le_refl _)) rfl hpath hmore
        simp only [KurlScan.enter, segment_self] at hnext
        exact hnext
      next hcolon =>
        rw [if_neg hcolon] at hstep
        refine .of_step hgo hc hstep ?_
        rw [← segment_snoc h.ahead h.began]
        exact ih (s := s.advance) (h.onward rfl (Nat.le_succ_of_le h.began)) hstate hpath (by omega)
          (by simp [KurlScan.advance, hgo])

theorem cmd_answers (h : ScanAt url rest s) (hstate : s.state = .cmd) (hpath : s.path = [])
    (hturns : rest.length + 2 ≤ turns) : Answers url turns s (some
      { s.result url with
        uPath := (scanCmd s.j (segment url s.spos s.i) rest).2
        uCmd := some (scanCmd s.j (segment url s.spos s.i) rest).1 }) := by
  obtain ⟨n, rfl⟩ := Nat.exists_eq_add_of_le' hturns
  have hgo : s.state ≠ .finished := by
    rw [hstate]
    decide
  induction rest generalizing s with
  | nil =>
    refine .of_step hgo h.null (by rw [kurlStep, hstate]) ?_
    have hi : ¬ s.i + 1 < url.length := by
      have := List.drop_eq_nil_iff.mp h.ahead
      omega
    rw [stepCmd, if_neg (by decide), if_pos (by decide), if_neg hi]
    exact (Answers.finished rfl (Nat.succ_pos _)).of_eq
      (by simp [scanCmd, KurlScan.result, KurlScan.enter, hpath])
  | cons c rest ih =>
    obtain ⟨hc, hzero⟩ := h.char
    obtain ⟨hlt, hdrop, _⟩ := drop_cons_lt h.ahead
    refine .of_step hgo hc (by rw [kurlStep, hstate]) ?_
    rw [stepCmd, scanCmd]
    split
    next =>
      by_cases hj : s.j < 2
      · rw [if_pos hj]
        dsimp only
        rw [if_pos (by omega)]
        have hnext := ih (s := { s with j := s.j + 1 }.enter .cmd) (h.onward rfl (Nat.le_refl _)) rfl hpath (by omega)
          (by simp [KurlScan.enter])
        simp only [KurlScan.enter, segment_self] at hnext
        exact hnext
      · rw [if_neg hj]
        dsimp only
        rw [if_neg (by omega), ← segment_snoc h.ahead h.began]
        exact ih (s := { s with j := s.j + 1 }.advance) (h.onward rfl (Nat.le_succ_of_le h.began)) hstate hpath
          (by omega) (by simp [KurlScan.advance, hgo])
    next =>
      by_cases hend : (c = byte '#' || isLineEnd c) = true
      · rw [if_pos hend, if_pos (by simp only [hend, Bool.true_or])]
        by_cases hlast : rest = []
        · have hi : ¬ s.i + 1 < url.length := by
            have := List.drop_eq_nil_iff.mp (hdrop.trans hlast)
            omega
          rw [if_pos hlast, if_neg hi]
          exact (Answers.finished rfl (Nat.succ_pos _)).of_eq (by simp [KurlScan.result, KurlScan.enter, hpath])
        · have hi : s.i + 1 < url.length := by
            by_contra hge
            exact hlast (hdrop.symm.trans (List.drop_eq_nil_of_le (Nat.le_of_not_lt hge)))
          rw [if_neg hlast, if_pos hi]
          exact (path_answers (h.onward rfl (Nat.le_refl _)) (Or.inr rfl) (Nat.le_add_left _ _)).of_eq
            (by simp [KurlScan.result, KurlScan.enter, segment_self, hpath])
      · rw [if_neg hend, if_neg (by simp only [hzero, decide_false, Bool.or_false]; exact hend),
          ← segment_snoc h.ahead h.began]
        exact ih (s := s.advance) (h.onward rfl (Nat.le_succ_of_le h.began)) hstate hpath (by omega)
          (by simp [KurlScan.advance, hgo])

theorem scheme_answers (h : ScanAt url rest s) (hstate : s.state = .scheme) (hj : s.j = 0) (hpath : s.path = [])
    (hcmd : s.cmd = none) (hhost : s.host = none) (hport : s.port = 0)
    (hturns : rest.length + 2 ≤ turns) : Answers url turns s
      ((scanScheme (segment url s.spos s.i) rest).bind fun (scheme, rest) =>
        if scheme.map toLower = textOf "katcp" ∨ scheme.map toLower = textOf "xport" then
          (scanHost [] rest).map fun (host, port, path) => ⟨url, scheme, some host, port, path, none⟩
        else if scheme.map toLower = textOf "exec" then
          some ⟨url, scheme, none, 0, (scanCmd 0 [] rest).2, some (scanCmd 0 [] rest).1⟩
        else none) := by
  obtain ⟨n, rfl⟩ := Nat.exists_eq_add_of_le' hturns
  have hgo : s.state ≠ .finished := by
    rw [hstate]
    decide
  induction rest generalizing s with
  | nil => exact .refused hgo h.null (by rw [kurlStep, hstate]; rfl)
  | cons c rest ih =>
    obtain ⟨hc, hzero⟩ := h.char
    have hstep : kurlStep url c s = stepScheme (segment url s.spos s.i) c s := by rw [kurlStep, hstate]
    rw [stepScheme, if_neg hzero] at hstep
    rw [scanScheme]
    by_cases hcolon : c = byte ':'
    · rw [if_pos hcolon, Option.bind_some]
      rw [if_pos hcolon] at hstep
      dsimp only at hstep ⊢
      have hhostly : ∀ k : KurlScan, k = { s with scheme := segment url s.spos s.i }.enter .host →
          Answers url (n + (rest.length + 2)) k ((scanHost [] rest).map fun (host, port, path) =>
            ⟨url, segment url s.spos s.i, some host, port, path, none⟩) := by
        rintro k rfl
        have hnext : ScanAt url rest ({ s with scheme := segment url s.spos s.i }.enter .host) :=
          h.onward rfl (Nat.le_refl _)
        refine (host_answers hnext rfl hpath (Nat.le_add_left _ _)).of_eq ?_
        simp [KurlScan.result, KurlScan.enter, segment_self, hcmd]
      by_cases hkatcp : (segment url s.spos s.i).map toLower = textOf "katcp"
      · rw [if_pos hkatcp] at hstep
        rw [if_pos (Or.inl hkatcp)]
        exact .of_step hgo hc hstep (hhostly _ rfl)
      · rw [if_neg hkatcp] at hstep
        by_cases hexec : (segment url s.spos s.i).map toLower = textOf "exec"
        · have hxport : (segment url s.spos s.i).map toLower ≠ textOf "xport" := by
            rw [hexec]
            decide
          rw [if_pos hexec] at hstep
          rw [if_neg (fun h => h.elim hkatcp hxport), if_pos hexec]
          refine .of_step hgo hc hstep ?_
          have hnext : ScanAt url rest ({ s with scheme := segment url s.spos s.i }.enter .cmd) :=
            h.onward rfl (Nat.le_refl _)
          refine (cmd_answers hnext rfl hpath (Nat.le_add_left _ _)).of_eq ?_
          simp [KurlScan.result, KurlScan.enter, segment_self, hj, hhost, hport]
        · rw [if_neg hexec] at hstep
          by_cases hxport : (segment url s.spos s.i).map toLower = textOf "xport"
          · rw [if_pos hxport] at hstep
            rw [if_pos (Or.inr hxport)]
            exact .of_step hgo hc hstep (hhostly _ rfl)
          · rw [if_neg hxport] at hstep
            rw [if_neg (fun h => h.elim hkatcp hxport), if_neg hexec]
            exact .refused hgo hc hstep
    · rw [if_neg hcolon] at hstep ⊢
      refine .of_step hgo hc hstep ?_
      rw [← segment_snoc h.ahead h.began]
      exact ih (s := s.advance) (h.onward rfl (Nat.le_succ_of_le h.began)) hstate hj hpath hcmd hhost hport
        (by omega) (by simp [KurlScan.advance, hgo])

/-- Index by index, the loop comes to an end behind no character but the null at the end, and gives
what the scans of the text give. -/
theorem createKurl_answers (hurl : (0 : Byte) ∉ url) (hturns : url.length + 2 ≤ turns) :
    createKurlFromStringKatcp url turns = some (createKurlFromString url) := by
  have hat : ScanAt url url {} := ⟨rfl, Nat.zero_le _, Nat.le_refl _, hurl⟩
  obtain ⟨t, ht, hr⟩ := scheme_answers hat rfl rfl rfl rfl rfl rfl hturns
  rw [createKurlFromStringKatcp, ht, Option.map_some, hr, segment_self]
  rfl

end

end Katcp
