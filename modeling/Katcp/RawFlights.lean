import Katcp.RawLock

namespace Katcp

variable {b : RawBuild} {s s' t : RawServer} {client : Text} {events : List RawEvent}

/-- No two operations of a kind are in flight. -/
def OneOfEach (s : RawServer) : Prop := (s.flights.map Flight.kind).Nodup

namespace RawServer

theorem not_inFlight {kind : FlightKind} : s.inFlight kind = false ↔ kind ∉ s.flights.map Flight.kind := by
  simp [inFlight]

/-- The end of an operation of another kind. -/
theorem inFlight_erase {f : Flight} {kind : FlightKind} (hkind : f.kind ≠ kind)
    (h : inFlight { s with flights := s.flights.erase f } kind = false) : s.inFlight kind = false := by
  rw [not_inFlight] at h ⊢
  intro hmem
  obtain ⟨g, hg, hgk⟩ := List.mem_map.mp hmem
  have hne : g ≠ f := by
    rintro rfl
    exact hkind hgk
  exact h (List.mem_map.mpr ⟨g, (List.mem_erase_of_ne hne).mpr hg, hgk⟩)

theorem oneOfEach_same (h : OneOfEach s) (hflights : s'.flights = s.flights) : OneOfEach s' := by
  unfold OneOfEach
  rw [hflights]
  exact h

theorem oneOfEach_erase (h : OneOfEach s) (f : Flight) : OneOfEach { s with flights := s.flights.erase f } :=
  h.sublist ((List.erase_sublist).map _)

theorem launch_oneOfEach (h : OneOfEach s) {kind : FlightKind} (hnot : s.inFlight kind = false) (client : Text)
    (launch : Launch) : OneOfEach (s.launch kind client launch).2 := by
  have hadded : ∀ running, OneOfEach { s with flights := s.flights ++ [⟨kind, client, running⟩] } := by
    intro running
    unfold OneOfEach
    rw [List.map_append]
    refine h.append (List.nodup_singleton _) fun k hk hk' => not_inFlight.mp hnot ?_
    rwa [List.mem_singleton.mp hk'] at hk
  cases launch with
  | runs => exact hadded true
  | fails left =>
    cases left with
    | true => exact hadded false
    | false => exact h

theorem programImage_oneOfEach (h : OneOfEach s) (hnot : s.inFlight .kcpfpg = false) {image : ImageFile}
    {result : KatcpResult} (hs : s.programImage b client image = some (result, s', events)) : OneOfEach s' := by
  unfold programImage at hs
  split at hs
  · cases Option.some.inj hs
    exact h
  · cases Option.some.inj hs
    exact h
  · obtain ⟨r, -, heq⟩ := Option.map_eq_some_iff.mp hs
    cases heq
    exact h
  · next launch =>
    have hlaunch := launch_oneOfEach h hnot client launch
    dsimp only at hs
    split at hs <;>
    · cases Option.some.inj hs
      exact hlaunch

theorem progdevCmd_oneOfEach (h : OneOfEach s) {args : Words} {opens : Bool} {image : ImageFile} {o : RawOutcome}
    (hs : s.progdevCmd b client args opens image = some o) : OneOfEach o.server := by
  unfold progdevCmd at hs
  split at hs
  · cases Option.some.inj hs
    exact h
  · next hfree =>
    have hstop : OneOfEach (s.stop client opens).2.1 := h
    have hnot : (s.stop client opens).2.1.inFlight .kcpfpg = false := Bool.eq_false_iff.mpr fun hf => hfree (.inr hf)
    dsimp only at hs
    split at hs
    · cases Option.some.inj hs
      exact hstop
    · split at hs
      · cases Option.some.inj hs
        exact hstop
      · split at hs
        · cases Option.some.inj hs
          exact hstop
        · obtain ⟨⟨result, t, more⟩, himage, heq⟩ := Option.map_eq_some_iff.mp hs
          have hdone := programImage_oneOfEach hstop hnot himage
          cases heq
          exact hdone

theorem uploadBinCmd_oneOfEach (h : OneOfEach s) (client : Text) (port : Option Nat) (opens : Bool) (launch : Launch) :
    OneOfEach (s.uploadBinCmd client port opens launch).server := by
  unfold uploadBinCmd
  split
  · exact h
  · split
    · exact h
    · split
      · exact h
      · next hnot =>
        have hstop : OneOfEach (s.stop client opens).2.1 := h
        have hlaunch := launch_oneOfEach hstop (Bool.eq_false_iff.mpr hnot) client launch
        dsimp only
        split
        · exact hstop
        · split <;> exact hlaunch

theorem uploadProgramCmd_oneOfEach (h : OneOfEach s) (client : Text) (port : Option Nat) (opens : Bool)
    (launch : Launch) : OneOfEach (s.uploadProgramCmd client port opens launch).server := by
  unfold uploadProgramCmd
  split
  · exact h
  · split
    · exact h
    · split
      · exact h
      · next hnot =>
        have hstop : OneOfEach (s.stop client opens).2.1 := h
        have hlaunch := launch_oneOfEach hstop (Bool.eq_false_iff.mpr hnot) client launch
        dsimp only
        split <;> exact hlaunch

theorem uploadProgramPartial_oneOfEach (h : OneOfEach s) {ok opens : Bool} {image : ImageFile}
    (hs : s.uploadProgramPartial b client ok opens image = some (s', events)) : OneOfEach s' := by
  unfold uploadProgramPartial at hs
  split at hs
  · cases Option.some.inj hs
    exact h
  · next hfree =>
    have hstop : OneOfEach (s.stop client opens).2.1 := h
    have hnot : (s.stop client opens).2.1.inFlight .kcpfpg = false := Bool.eq_false_iff.mpr fun hf => hfree (.inr hf)
    dsimp only at hs
    split at hs
    · cases Option.some.inj hs
      exact hstop
    · obtain ⟨⟨result, t, more⟩, himage, heq⟩ := Option.map_eq_some_iff.mp hs
      cases heq
      exact programImage_oneOfEach hstop hnot himage

theorem uploadBinComplete_flights (s : RawServer) (client : Text) (ok : Bool) :
    (s.uploadBinComplete client ok).1.flights = s.flights := by
  cases ok <;> rfl

theorem lockdevCmd_flights (s : RawServer) (client : Text) (args : Words) :
    (s.lockdevCmd client args).server.flights = s.flights := by
  unfold lockdevCmd
  split
  · rfl
  · split <;> rfl

theorem unlockdevCmd_flights {args : Words} {o : RawOutcome} (ho : s.unlockdevCmd client args = some o) :
    o.server.flights = s.flights := by
  unfold unlockdevCmd at ho
  split at ho
  · cases Option.some.inj ho
    rfl
  · dsimp only at ho
    split at ho
    · cases Option.some.inj ho
      rfl
    · split at ho
      · cases Option.some.inj ho
        split <;> rfl
      · split at ho
        · obtain ⟨given, -, rfl⟩ := Option.map_eq_some_iff.mp ho
          split <;> rfl
        · cases Option.some.inj ho
          rfl

theorem land_oneOfEach (h : OneOfEach s) {kind : FlightKind} (hland : s.land kind = some (client, s')) :
    OneOfEach s' := by
  obtain ⟨f, -, -, -, -, rfl⟩ := land_some hland
  exact oneOfEach_erase h f

end RawServer

theorem flights_keep (b : RawBuild) : (rawMachine b).Keeps (fun _ _ => True) fun s _ => OneOfEach s := by
  intro s log a s' h _ hstep
  obtain ⟨⟨next, out⟩, hact, rfl⟩ := Option.map_eq_some_iff.mp hstep
  cases a with
  | progdev client args opens image =>
    obtain ⟨o, ho, heq⟩ := Option.map_eq_some_iff.mp hact
    cases heq
    exact RawServer.progdevCmd_oneOfEach h ho
  | uploadBin client port opens launch =>
    cases Option.some.inj hact
    exact RawServer.uploadBinCmd_oneOfEach h ..
  | progremote client port opens launch =>
    cases Option.some.inj hact
    exact RawServer.uploadProgramCmd_oneOfEach h ..
  | lockdev client args =>
    cases Option.some.inj hact
    exact RawServer.oneOfEach_same h (RawServer.lockdevCmd_flights ..)
  | unlockdev client args =>
    obtain ⟨o, ho, heq⟩ := Option.map_eq_some_iff.mp hact
    cases heq
    exact RawServer.oneOfEach_same h (RawServer.unlockdevCmd_flights ho)
  | register name d =>
    cases Option.some.inj hact
    exact h
  | metaEntry args =>
    cases Option.some.inj hact
    exact h
  | finalise opens address =>
    obtain ⟨r, -, heq⟩ := Option.map_eq_some_iff.mp hact
    cases heq
    exact h
  | clobber enabled =>
    cases Option.some.inj hact
    exact h
  | tapStart name tap works =>
    cases Option.some.inj hact
    exact h
  | tapStop tap =>
    cases Option.some.inj hact
    exact h
  | transfer =>
    obtain ⟨r, -, heq⟩ := Option.map_eq_some_iff.mp hact
    cases heq
    exact h
  | binDone ok =>
    obtain ⟨⟨client, t⟩, hland, heq⟩ := Option.map_eq_some_iff.mp hact
    have hflights := RawServer.uploadBinComplete_flights t client ok
    dsimp only at heq
    rw [heq] at hflights
    exact RawServer.oneOfEach_same (RawServer.land_oneOfEach h hland) hflights
  | remoteDone ok opens image =>
    obtain ⟨⟨client, t⟩, hland, hpart⟩ := Option.bind_eq_some_iff.mp hact
    exact RawServer.uploadProgramPartial_oneOfEach (RawServer.land_oneOfEach h hland) hpart
  | kcpfpgDone =>
    obtain ⟨⟨client, t⟩, hland, heq⟩ := Option.map_eq_some_iff.mp hact
    cases heq
    exact RawServer.land_oneOfEach h hland
  | collect f =>
    obtain ⟨-, heq⟩ := Option.ite_none_right_eq_some.mp hact
    cases heq
    exact RawServer.oneOfEach_erase h f

/-- A request that is refused and changes nothing. -/
def Refused (s : RawServer) (o : RawOutcome) : Prop := o.server = s ∧ o.events = [] ∧ o.result ≠ .done .ok ∧ o.result ≠ .pause

/-- One operation of a kind at a time: a request for another is refused, and the child for an
fpg file is not disturbed by an upload that ends. -/
structure Exclusive (b : RawBuild) (s : RawServer) : Prop where
  once : OneOfEach s
  bin : s.inFlight .bin = true → ∀ client port opens launch, Refused s (s.uploadBinCmd client port opens launch)
  remote : s.inFlight .remote = true → ∀ client port opens launch,
    Refused s (s.uploadProgramCmd client port opens launch)
  kcpfpg : s.inFlight .kcpfpg = true → ∀ client args opens image,
    ∃ o, s.progdevCmd b client args opens image = some o ∧ Refused s o
  ended : s.inFlight .kcpfpg = true → ∀ client ok opens image,
    s.uploadProgramPartial b client ok opens image = some (s, [.attempted .failed])

theorem refused_answer {code : ResultCode} (hcode : code ≠ .ok) : Refused s (s.answer code) :=
  ⟨rfl, rfl, fun he => hcode (KatcpResult.done.inj he), fun he => (nomatch he)⟩

/-- Whatever the order of requests and of children that end, the operations of each kind exclude
each other. -/
theorem operations_exclusive {log : List RawEvent} (h : (rawMachine b).Runs (fun _ _ => True) s log) :
    Exclusive b s := by
  refine ⟨h.invariant (fun s _ => OneOfEach s) List.nodup_nil (flights_keep b), ?_, ?_, ?_, ?_⟩
  · intro hbin client port opens launch
    unfold RawServer.uploadBinCmd
    split
    · exact refused_answer (by decide)
    · split
      · exact refused_answer (by decide)
      · exact refused_answer (by decide)
  · intro hremote client port opens launch
    unfold RawServer.uploadProgramCmd
    split
    · exact refused_answer (by decide)
    · split
      · exact refused_answer (by decide)
      · exact refused_answer (by decide)
  · intro hkcpfpg client args opens image
    exact ⟨_, if_pos (.inr hkcpfpg), refused_answer (by decide)⟩
  · intro hkcpfpg client ok opens image
    exact if_pos (.inr hkcpfpg)

/-- An upload, and the child of another client's fpg file, in flight at once. -/
theorem operations_exclusive_two : ∃ s, Exclusive hostBuild s ∧ s.flights.map Flight.kind = [.bin, .kcpfpg] :=
  ⟨_, operations_exclusive (Machine.Runs.exec (.start (m := rawMachine hostBuild))
    [.uploadBin (textOf "a") none true .runs, .progdev (textOf "b") [textOf "progdev", textOf "x.fpg"] true (.fpg .runs)]
    rfl (Machine.meets_true ..)), rfl⟩

/-- The child that programs an fpg file asks for an upload while it is itself in flight, and is
served. -/
theorem two_in_flight : ¬ ∀ s log, (rawMachine hostBuild).Runs (fun _ _ => True) s log →
    s.flights.length ≤ 1 ∧ ∀ client port opens launch, s.flights ≠ [] →
      Refused s (s.uploadBinCmd client port opens launch) := by
  intro h
  have hruns := Machine.Runs.exec (.start (m := rawMachine hostBuild))
    [.progdev (textOf "b") [textOf "progdev", textOf "x.fpg"] true (.fpg .runs)] rfl (Machine.meets_true ..)
  have hrefused := (h _ _ hruns).2 (textOf "kcpfpg") none true .runs (fun he => nomatch he)
  exact hrefused.2.2.2 rfl

end Katcp
