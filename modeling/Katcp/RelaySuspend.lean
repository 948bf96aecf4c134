import Katcp.RelayRun

namespace Katcp

open SwapVector

variable {F : Type} {fl : Doubles F} {s t : RelayState F} {sn : RelaySensor F} {ku : KatcpUrl}
  {name mark seg rest start notice combine : Text}

/-- A sensor is relayed from the subordinate with a URL. -/
def RelaySensor.From (sn : RelaySensor F) (ku : KatcpUrl) : Prop := sn.origin.map Prod.fst = some ku

instance (sn : RelaySensor F) (ku : KatcpUrl) : Decidable (sn.From ku) := inferInstanceAs (Decidable (_ = _))

theorem scanScheme_append {more : Text} {r : Text × Text} (h : scanScheme seg name = some r) :
    scanScheme seg (name ++ more) = some (r.1, r.2 ++ more) := by
  induction name generalizing seg with
  | nil => cases h
  | cons c name ih =>
    rw [scanScheme] at h
    rw [List.cons_append, scanScheme]
    split at h
    next hc =>
      cases h
      rw [if_pos hc]
    next hc =>
      rw [if_neg hc]
      exact ih h

theorem scanHost_append {more host : Text} {r : Int × List Text} (h : scanHost seg name = some (host, r)) :
    ∃ r', scanHost seg (name ++ more) = some (host, r') := by
  induction name generalizing seg with
  | nil => cases h
  | cons c name ih =>
    rw [scanHost] at h
    rw [List.cons_append, scanHost]
    split at h
    next hc =>
      rw [if_pos hc]
      exact ih h
    next hc =>
      rw [if_neg hc]
      split at h
      next hcolon =>
        cases h
        rw [if_pos hcolon]
        exact ⟨_, rfl⟩
      next hcolon =>
        rw [if_neg hcolon]
        exact ih h

/-- A command ends where the mark of a notice starts. -/
theorem scanCmd_append {slashes : Nat} :
    (scanCmd slashes seg (name ++ byte '#' :: rest)).1 = (scanCmd slashes seg name).1 := by
  induction name generalizing slashes seg with
  | nil => rfl
  | cons c name ih =>
    rw [List.cons_append, scanCmd, scanCmd]
    split
    next =>
      split
      next => exact ih
      next => exact ih
    next =>
      split
      next => rfl
      next => exact ih

theorem createKurlFromString_start (h : createKurlFromString name = some ku) :
    ku.uStr = name ∧ ∃ start, (ku.uCmd <|> ku.uHost) = some start := by
  obtain ⟨⟨scheme, rest⟩, _, h⟩ := Option.bind_eq_some_iff.mp h
  dsimp only at h
  split at h
  next =>
    obtain ⟨⟨host, port, path⟩, _, rfl⟩ := Option.map_eq_some_iff.mp h
    exact ⟨rfl, host, rfl⟩
  next =>
    split at h
    next =>
      cases h
      exact ⟨rfl, _, rfl⟩
    next => cases h

/-- The notices of a subordinate's informs have the start of its own URL. -/
theorem suspendPrefix_mark (h : suspendPrefix name = some start) (hmark : mark.head? = some (byte '#')) :
    suspendPrefix (name ++ mark) = some start := by
  obtain ⟨ku, hku, hstart⟩ := Option.bind_eq_some_iff.mp h
  obtain ⟨⟨scheme, rest⟩, hscheme, hku⟩ := Option.bind_eq_some_iff.mp hku
  obtain ⟨more, rfl⟩ := List.head?_eq_some_iff.mp hmark
  rw [suspendPrefix, createKurlFromString, scanScheme_append hscheme, Option.bind_some]
  dsimp only at hku ⊢
  split at hku
  next hhost =>
    rw [if_pos hhost]
    obtain ⟨⟨host, r⟩, hscan, rfl⟩ := Option.map_eq_some_iff.mp hku
    obtain ⟨r', hscan'⟩ := scanHost_append hscan
    rw [hscan']
    exact hstart
  next hhost =>
    rw [if_neg hhost]
    split at hku
    next hexec =>
      rw [if_pos hexec]
      cases hku
      rw [← hstart]
      simp only [Option.bind_some, scanCmd_append]
    next => cases hku

theorem scanHost_colon : ∃ r, scanHost seg (name ++ byte ':' :: rest) = some r := by
  induction name generalizing seg with
  | nil => exact ⟨_, rfl⟩
  | cons c name ih =>
    rw [List.cons_append, scanHost]
    split
    next => exact ih
    next =>
      split
      next => exact ⟨_, rfl⟩
      next => exact ih

theorem jobUrl_start {source : JobSource} (h : jobUrl source = some ku) :
    ∃ start, suspendPrefix ku.uStr = some start := by
  have hfound : ∃ kv, createKurlFromString ku.uStr = some kv := by
    cases source with
    | host host port =>
      cases h
      have hscheme : scanScheme [] (createKurl (textOf "katcp") host port (some (textOf "/"))).uStr =
          some (textOf "katcp", textOf "//" ++ host ++ byte ':' :: (decimalText port ++ textOf "/")) := by
        simp only [createKurl, copyKurlString, List.append_assoc]
        rfl
      obtain ⟨r, hscan⟩ : ∃ r, scanHost [] (textOf "//" ++ host ++ byte ':' :: (decimalText port ++ textOf "/")) = some r :=
        scanHost_colon
      have hkatcp : (textOf "katcp").map toLower = textOf "katcp" := by decide
      rw [createKurlFromString, hscheme, Option.bind_some]
      dsimp only
      rw [if_pos (Or.inl hkatcp), hscan]
      exact ⟨_, rfl⟩
    | exec cmd =>
      cases h
      exact ⟨_, rfl⟩
    | string url =>
      have hurl : createKurlFromString url = some ku := h
      exact ⟨ku, by rw [(createKurlFromString_start hurl).1, hurl]⟩
  obtain ⟨kv, hkv⟩ := hfound
  obtain ⟨_, start, hstart⟩ := createKurlFromString_start hkv
  exact ⟨start, by rw [suspendPrefix, hkv]; exact hstart⟩

/-- The name of a relayed sensor starts with its subordinate, unless it was given as an
absolute one. -/
theorem pathFromNotice_start (hstart : suspendPrefix notice = some start) (hname : name.head? ≠ some (byte '.'))
    (h : pathFromNotice notice name = some combine) : start <+: combine := by
  obtain ⟨ku, hku, hparts⟩ := Option.bind_eq_some_iff.mp hstart
  rw [pathFromNotice, if_neg hname, hku] at h
  cases h
  dsimp only
  cases hcmd : ku.uCmd with
  | some cmd =>
    rw [hcmd] at hparts
    cases hparts
    refine List.prefix_take_iff.mpr ⟨?_, by omega⟩
    rw [List.append_assoc]
    exact List.prefix_append _ _
  | none =>
    rw [hcmd] at hparts
    have hhost : ku.uHost = some start := hparts
    dsimp only
    rw [hhost, Option.getD_some]
    split
    next =>
      refine List.prefix_take_iff.mpr ⟨?_, by omega⟩
      rw [List.append_assoc]
      exact List.prefix_append _ _
    next =>
      refine List.prefix_take_iff.mpr ⟨?_, by omega⟩
      simp only [List.append_assoc]
      exact List.prefix_append _ _

/-- A sensor that is relayed has the name that its subordinate's notice gives to it. -/
def Titled (label : Text × Option (KatcpUrl × Text)) : Prop :=
  ∀ ku name, label.2 = some (ku, name) → (∃ start, suspendPrefix ku.uStr = some start) ∧
    pathFromNotice (noticeName ku sensorListInform) name = some label.1

structure RelayNames (s : RelayState F) : Prop where
  jobs : ∀ job ∈ s.jobs, ∃ start, suspendPrefix job.url.uStr = some start
  sensors : ∀ sn ∈ s.sensors, Titled sn.label

namespace RelayNames

variable {sx : RelaySensor F} {i j : Nat} {args : Words} {now : Timeval} {told : List (Option SensorUpdate)}

theorem setSensor (h : RelayNames s) (hx : Titled sx.label) : RelayNames (s.setSensor i sx) := by
  refine ⟨h.jobs, fun sn hsn => ?_⟩
  rcases List.mem_or_eq_of_mem_set hsn with hsn | rfl
  · exact h.sensors sn hsn
  · exact hx

theorem setJob (h : RelayNames s) {job jx : RelayJob} (hjob : s.jobs[j]? = some job) (hurl : jx.url = job.url) :
    RelayNames (s.setJob j jx) := by
  refine ⟨fun jy hjy => ?_, h.sensors⟩
  rcases List.mem_or_eq_of_mem_set hjy with hjy | rfl
  · exact h.jobs jy hjy
  · rw [hurl]
    exact h.jobs job (List.mem_of_getElem? hjob)

theorem changed (h : RelayNames s) {f : RelaySensor F → RelaySensor F} (hs : s.changed i f = some t)
    (hf : ∀ sn, (f sn).label = sn.label) : RelayNames t := by
  unfold RelayState.changed at hs
  split at hs
  next => cases hs
  next sn hsn =>
    split at hs
    next => cases hs
    next =>
      cases hs
      exact h.setSensor (hf sn ▸ h.sensors sn (List.mem_of_getElem? hsn))

theorem add (h : RelayNames s) (hx : Titled sx.label) : RelayNames { s with sensors := s.sensors ++ [sx] } := by
  refine ⟨h.jobs, fun sn hsn => ?_⟩
  rcases List.mem_append.mp hsn with hsn | hsn
  · exact h.sensors sn hsn
  · cases List.mem_singleton.mp hsn
    exact hx

theorem map (h : RelayNames s) {f : RelaySensor F → RelaySensor F} (hf : ∀ sn, (f sn).label = sn.label) :
    RelayNames { s with sensors := s.sensors.map f } := by
  refine ⟨h.jobs, fun sn hsn => ?_⟩
  obtain ⟨sy, hsy, rfl⟩ := List.mem_map.mp hsn
  rw [hf]
  exact h.sensors sy hsy

theorem listed (h : RelayNames s) {memory : CheckedSensor Int} (hs : deliverList fl s j args memory = some t) :
    RelayNames t := by
  rcases deliverList_cases hs with rfl | ⟨job, r, hjob, rfl⟩
  · exact h
  · rcases matchSensorList_cases fl s job.url (noticeName job.url sensorListInform) args memory with
      heq | ⟨combine, more, name, hpath, heq⟩
    · rw [heq]
      exact h.setJob hjob rfl
    · rw [heq]
      refine (h.add ?_).setJob hjob rfl
      intro ku name' horigin
      cases horigin
      exact ⟨h.jobs job (List.mem_of_getElem? hjob), hpath⟩

theorem delivered (h : RelayNames s) (hs : deliverStatus fl s j args now = some (t, told)) : RelayNames t := by
  unfold deliverStatus at hs
  split at hs
  next => cases hs
  next job hjob =>
    split at hs
    next => cases hs
    next =>
      split at hs
      next => cases hs; exact h
      next =>
        obtain ⟨⟨r, u, told⟩, hmatch, heq⟩ := Option.map_eq_some_iff.mp hs
        cases heq
        rcases matchSensorStatus_cases hmatch with ⟨rfl, _⟩ | ⟨i, sn, scan, hsn, hscan, hupdate⟩
        · exact h.setJob hjob rfl
        · rcases updateStatus_cases hupdate with rfl | ⟨sx, sy, rfl, hlabel, _, hu⟩
          · exact h.setJob hjob rfl
          · have htitled : Titled sy.label := by
              rw [hlabel, (scanned_same hscan).1]
              exact h.sensors sn (List.mem_of_getElem? hsn)
            rcases hu with rfl | rfl
            · exact (h.setSensor htitled).setJob hjob rfl
            · exact (h.setSensor (by rwa [propagate_label])).setJob hjob rfl

end RelayNames

theorem suspend_label (start : Text) (status : SensorStatus) (sn : RelaySensor F) :
    (if start.isPrefixOf sn.sName then { sn with sStatus := status } else sn).label = sn.label := by
  split <;> rfl

theorem titled_local (h : ¬ sn.origin.isSome) : Titled sn.label := by
  intro ku name horigin
  exact absurd (by rw [show sn.origin = _ from horigin]; rfl) h

theorem relay_names_keep (fl : Doubles F) : (relayMachine fl).Keeps (fun _ _ => True) fun s _ => RelayNames s := by
  intro s log a t h _ hs
  cases a with
  | connect source =>
    obtain ⟨url, hurl, rfl⟩ := Option.map_eq_some_iff.mp hs
    refine ⟨fun job hjob => ?_, h.sensors⟩
    rcases List.mem_append.mp hjob with hjob | hjob
    · exact h.jobs job hjob
    · cases List.mem_singleton.mp hjob
      exact jobUrl_start hurl
  | list j args memory => exact h.listed hs
  | status j args now =>
    obtain ⟨⟨u, told⟩, hdeliver, rfl⟩ := Option.map_eq_some_iff.mp hs
    exact h.delivered hdeliver
  | suspend j mark =>
    obtain ⟨job, hjob, rfl⟩ := Option.map_eq_some_iff.mp hs
    unfold jobSuspendSensor
    split
    next => exact h
    next start _ => exact h.map (suspend_label start .unknown)
  | gone j =>
    obtain ⟨job, hjob, rfl⟩ := Option.map_eq_some_iff.mp hs
    exact h.setJob hjob rfl
  | configure i d r now => exact h.changed hs fun _ => configure_label
  | force i d now => exact h.changed hs fun _ => force_label
  | poll i now => exact h.changed hs fun _ => propagate_label
  | leave d now =>
    cases hs
    exact h.map fun _ => drop_label
  | createLocal sn =>
    unfold relayMachine relayStep at hs
    dsimp only at hs
    split at hs
    next => cases hs
    next hlocal =>
      cases hs
      exact h.add (titled_local hlocal)
  | changeLocal i sn =>
    unfold relayMachine relayStep at hs
    dsimp only at hs
    split at hs
    next => cases hs
    next hlocal =>
      split at hs
      next => cases hs
      next =>
        split at hs
        next => cases hs
        next =>
          cases hs
          exact h.setSensor (titled_local hlocal)
  | destroy i =>
    unfold relayMachine relayStep at hs
    dsimp only at hs
    split at hs
    next hlt =>
      cases hs
      refine ⟨h.jobs, fun sn hsn => h.sensors sn ?_⟩
      exact (removeAt_perm (List.getElem?_eq_getElem hlt)).mem_iff.mp (List.mem_cons_of_mem _ hsn)
    next => cases hs
  | mode mode =>
    cases hs
    exact ⟨h.jobs, h.sensors⟩

theorem relay_names {log : List (Option SensorUpdate)} (h : (relayMachine fl).Runs (fun _ _ => True) s log) :
    RelayNames s :=
  h.invariant (fun s _ => RelayNames s)
    ⟨fun _ hjob => by simp [relayMachine] at hjob, fun _ hsn => by simp [relayMachine] at hsn⟩ (relay_names_keep fl)

/-- The sensors of one subordinate become unknown, and nothing else changes. -/
def SuspendsOwn (s : RelayState F) (ku : KatcpUrl) (notice : Text) : Prop :=
  jobSuspendSensor s notice =
    { s with sensors := s.sensors.map fun sn => if sn.From ku then { sn with sStatus := .unknown } else sn }

theorem unknown_iff (p q : Prop) [Decidable p] [Decidable q] :
    (if p then { sn with sStatus := .unknown } else sn) = (if q then { sn with sStatus := .unknown } else sn) ↔
      (sn.sStatus ≠ .unknown → (q ↔ p)) := by
  have hset : { sn with sStatus := .unknown } = sn ↔ sn.sStatus = .unknown := by
    constructor
    · intro h
      rw [← h]
    · intro h
      rw [← h]
  by_cases hp : p
  · by_cases hq : q
    · simp [hp, hq]
    · simp [hp, hq, hset]
  · by_cases hq : q
    · simp [hp, hq, hset, eq_comm (a := sn)]
    · simp [hp, hq]

theorem suspends_iff (hstart : suspendPrefix notice = some start) : SuspendsOwn s ku notice ↔
    ∀ sn ∈ s.sensors, sn.sStatus ≠ .unknown → (sn.From ku ↔ start <+: sn.sName) := by
  have hstatus : jobSuspendSensor s notice = setStatusGroup s start .unknown := by
    rw [jobSuspendSensor, hstart]
  rw [SuspendsOwn, hstatus, setStatusGroup, RelayState.mk.injEq]
  simp only [true_and]
  rw [List.map_inj_left]
  refine forall₂_congr fun sn _ => ?_
  rw [unknown_iff, List.isPrefixOf_iff_prefix]

/-- When a notice of a subordinate's inform suspends its sensors, exactly these become unknown
if and only if no other sensor that is not unknown has a name with the same start, and none of
its own goes by an absolute name without that. -/
theorem suspends_own_iff {log : List (Option SensorUpdate)} (h : (relayMachine fl).Runs (fun _ _ => True) s log) {j : Nat}
    {job : RelayJob} (hjob : s.jobs[j]? = some job) (hmark : mark.head? = some (byte '#')) :
    ∃ start, suspendPrefix job.url.uStr = some start ∧ (SuspendsOwn s job.url (noticeName job.url mark) ↔
      ∀ sn ∈ s.sensors, sn.sStatus ≠ .unknown →
        (start <+: sn.sName → sn.From job.url) ∧
        ∀ name, sn.origin = some (job.url, name) → name.head? = some (byte '.') → start <+: sn.sName) := by
  obtain ⟨start, hstart⟩ := (relay_names h).jobs job (List.mem_of_getElem? hjob)
  have hmarked : ∀ m : Text, m.head? = some (byte '#') → suspendPrefix (noticeName job.url m) = some start :=
    fun m hm => suspendPrefix_mark hstart hm
  refine ⟨start, hstart, ?_⟩
  rw [suspends_iff (hmarked mark hmark)]
  refine forall₃_congr fun sn hsn _ => ?_
  constructor
  · rintro hiff
    refine ⟨hiff.mpr, fun name horigin _ => hiff.mp ?_⟩
    rw [RelaySensor.From, horigin]
    rfl
  · rintro ⟨hothers, habsolute⟩
    refine ⟨fun hfrom => ?_, hothers⟩
    obtain ⟨⟨ku, name⟩, horigin, rfl⟩ := Option.map_eq_some_iff.mp hfrom
    by_cases hname : name.head? = some (byte '.')
    · exact habsolute name horigin hname
    · exact pathFromNotice_start (hmarked sensorListInform (by decide)) hname ((relay_names h).sensors sn hsn _ _ horigin).2

def roachAt (name : Text) : KatcpUrl := createKurl (textOf "katcp") name 7147 (some (textOf "/"))

/-- Two subordinates, the second with a sensor that is in order. -/
def twoRoaches : RelayState Int :=
  ⟨0, [⟨roachAt (textOf "roach1"), true, true, true⟩, ⟨roachAt (textOf "roach10"), true, true, true⟩],
    [⟨textOf "roach10.temp", 0, .nominal, [], .integer ⟨5, .none, 0, 0, 0, 0⟩ 5,
      some (roachAt (textOf "roach10"), textOf "temp")⟩]⟩

theorem twoRoaches_runs : (relayMachine wholeDoubles).Runs (fun _ _ => True) twoRoaches [] :=
  Machine.Runs.exec .start
    [.connect (.host (textOf "roach1") 7147), .connect (.host (textOf "roach10") 7147),
      .list 1 [textOf "#sensor-list", textOf "temp", textOf "heat", textOf "C", textOf "integer"] ⟨0, .none, 0, 0, 0, 0⟩,
      .status 1 [textOf "#sensor-status", textOf "0", textOf "1", textOf "temp", textOf "nominal", textOf "5"] ⟨1, 0⟩]
    rfl (Machine.meets_true _ _ _)

theorem suspends_own_iff_longer : SuspendsOwn twoRoaches (roachAt (textOf "roach10"))
    (noticeName (roachAt (textOf "roach10")) (textOf "#return")) := by
  obtain ⟨start, hstart, hiff⟩ := suspends_own_iff twoRoaches_runs (j := 1) rfl (by decide : (textOf "#return").head? = _)
  refine hiff.mpr fun sn hsn _ => ?_
  cases List.mem_singleton.mp hsn
  refine ⟨fun _ => by decide, fun name horigin hname => ?_⟩
  cases horigin
  cases hname

/-- The name of one host is the start of the other's. -/
theorem longer_host_suspended : ¬ ∀ (F : Type) (fl : Doubles F) (s : RelayState F) (log : List (Option SensorUpdate))
    (j : Nat) (job : RelayJob) (mark : Text), (relayMachine fl).Runs (fun _ _ => True) s log → s.jobs[j]? = some job →
      mark.head? = some (byte '#') → SuspendsOwn s job.url (noticeName job.url mark) := by
  intro hall
  have hsuspends := hall Int wholeDoubles twoRoaches [] 0 _ (textOf "#return") twoRoaches_runs rfl (by decide)
  have hstatuses := congrArg (fun s => s.sensors.map RelaySensor.sStatus) hsuspends
  exact absurd hstatuses (by decide)

end Katcp
