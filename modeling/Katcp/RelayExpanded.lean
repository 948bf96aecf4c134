import Katcp.RelayTemplate

namespace Katcp

/-- A message that holds some arguments, under construction or with its last one in. -/
structure Extended (last : Bool) (p : Parse) (args : List Arg) : Prop where
  staged : Staged p args
  state : p.pState = if last then .done else .fake
  begun : args ≠ []

def marked (words : Words) : List Arg := words.map fun text => ⟨text, 1⟩

section

variable {p q px : Parse} {args : List Arg} {first last : Bool} {i : Nat}

theorem Extended.opened (h : Extended false p args) : false = false → args ≠ [] ∧ p.pState = .fake :=
  fun _ => ⟨h.begun, h.state⟩

theorem addBuffer_extends (h : Extended false p args) (last : Bool) (text : Text) :
    ∃ q, addBuffer p false last text = some q ∧ Extended last q (args ++ marked [text]) := by
  obtain ⟨q, hq, hstaged, hstate⟩ := addBuffer_staged h.staged (fun hf => by cases hf) h.opened last text
  exact ⟨q, hq, hstaged, hstate, List.append_ne_nil_of_right_ne_nil _ (List.cons_ne_nil _ _)⟩

theorem addEnd_extends (h : Extended false p args) : ∃ q, addEnd p = some q ∧ Extended true q args := by
  have hstate : p.pState = .fake := h.state
  have hgot : p.pGot ≠ 0 := by
    rw [h.staged.count]
    exact fun hlen => h.begun (List.eq_nil_of_length_eq_zero hlen)
  refine ⟨{ p with pState := .done }, ?_, ?_, rfl, h.begun⟩
  · rw [addEnd, if_neg (not_not_intro hstate), if_neg hgot]
  · exact ⟨h.staged.got, h.staged.count, h.staged.kept, h.staged.bound, h.staged.args⟩

theorem addParameter_extends (h : Extended false p args) {a : Arg} (ha : px.args[i]? = some a) (last : Bool) :
    ∃ q, addParameter p false last px i = .added q ∧ Extended last q (args ++ marked [a.text]) := by
  obtain ⟨la, hla, htext⟩ : ∃ la, (px.pArgs.take px.pGot)[i]? = some la ∧ px.argText la = a.text := by
    simp only [Parse.args, Parse.message, List.getElem?_map, Option.map_eq_some_iff] at ha
    obtain ⟨la, hla, rfl⟩ := ha
    exact ⟨la, hla, rfl⟩
  obtain ⟨q, hq, hextended⟩ := addBuffer_extends h last a.text
  refine ⟨q, ?_, hextended⟩
  rw [addParameter, hla]
  dsimp only
  rw [htext, hq]
  rfl

theorem trailingLoop_extends (left : Nat) (h : Extended false p args) (hlen : i + left + 1 = px.args.length)
    (last : Bool) : ∃ q, trailingLoop px last left p false i = .added q ∧
      Extended last q (args ++ marked ((px.args.drop i).map Arg.text)) := by
  have hlt : i < px.args.length := by omega
  have hget := List.getElem?_eq_getElem hlt
  have hdrop := List.drop_eq_getElem_cons hlt
  induction left generalizing p args i with
  | zero =>
    obtain ⟨q, hq, hextended⟩ := addParameter_extends h hget last
    rw [hdrop, List.drop_eq_nil_of_le (by omega)]
    exact ⟨q, hq, hextended⟩
  | succ left ih =>
    obtain ⟨q, hq, hextended⟩ := addParameter_extends h hget false
    have hnext : i + 1 < px.args.length := by omega
    obtain ⟨r, hr, hmore⟩ := ih (i := i + 1) hextended (by omega) hnext (List.getElem?_eq_getElem hnext)
      (List.drop_eq_getElem_cons hnext)
    refine ⟨r, ?_, ?_⟩
    · rw [trailingLoop, hq]
      exact hr
    · rw [hdrop]
      rw [List.append_assoc] at hmore
      exact hmore

theorem addTrailing_extends (h : Extended false p args) (hi : i < px.pGot) (hlen : px.args.length = px.pGot)
    (last : Bool) : ∃ q, addTrailing p false last px i = .added q ∧
      Extended last q (args ++ marked ((px.args.drop i).map Arg.text)) := by
  have hleft : i + (px.pGot - 1 - i) + 1 = px.args.length := by omega
  obtain ⟨q, hq, hextended⟩ := trailingLoop_extends (px.pGot - 1 - i) h hleft last
  refine ⟨q, ?_, hextended⟩
  rw [addTrailing, if_neg (by omega)]
  exact hq

/-- A tree or an array that comes last is finished by hand. -/
theorem addEnd_last (h : Extended false q args) (last : Bool) :
    ∃ r, (if last then AddResult.ofOption (addEnd q) else .added q) = .added r ∧ Extended last r args := by
  cases last with
  | false => exact ⟨q, rfl, h⟩
  | true =>
    obtain ⟨r, hr, hextended⟩ := addEnd_extends h
    refine ⟨r, ?_, hextended⟩
    rw [if_pos rfl, hr]
    rfl

mutual

theorem addPayload_extends {p : Parse} {args : List Arg} (h : Extended false p args) (py : Payload)
    (last : Bool) :
    ∃ q, addPayload py p last = .added q ∧ Extended last q (args ++ marked (RelayContext.payloadTexts py)) := by
  cases py with
  | string u =>
    obtain ⟨q, hq, hextended⟩ := addBuffer_extends h last (u.getD [])
    exact ⟨q, by rw [addPayload, hq]; rfl, hextended⟩
  | tree m =>
    obtain ⟨q, hq, hextended⟩ := addMembers_extends h m
    obtain ⟨r, hr, hended⟩ := addEnd_last hextended last
    refine ⟨r, ?_, hended⟩
    rw [addPayload, hq]
    exact hr
  | array es =>
    obtain ⟨q, hq, hextended⟩ := addElements_extends h es
    obtain ⟨r, hr, hended⟩ := addEnd_last hextended last
    refine ⟨r, ?_, hended⟩
    rw [addPayload, hq]
    exact hr

theorem addMembers_extends {p : Parse} {args : List Arg} (h : Extended false p args) (m : List (Text × Payload)) :
    ∃ q, addMembers m p = .added q ∧ Extended false q (args ++ marked (RelayContext.memberTexts m)) := by
  cases m with
  | nil => exact ⟨p, rfl, by simpa [RelayContext.memberTexts, marked] using h⟩
  | cons e m =>
    obtain ⟨key, py⟩ := e
    obtain ⟨q, hq, hextended⟩ := addPayload_extends h py false
    obtain ⟨r, hr, hmore⟩ := addMembers_extends hextended m
    refine ⟨r, ?_, ?_⟩
    · rw [addMembers, hq]
      exact hr
    · rw [RelayContext.memberTexts, marked, List.map_append, ← List.append_assoc]
      exact hmore

theorem addElements_extends {p : Parse} {args : List Arg} (h : Extended false p args) (es : List (Option Payload)) :
    ∃ q, addElements es p = .added q ∧ Extended false q (args ++ marked (RelayContext.elementTexts es)) := by
  cases es with
  | nil => exact ⟨p, rfl, by simpa [RelayContext.elementTexts, marked] using h⟩
  | cons e es =>
    cases e with
    | none =>
      obtain ⟨q, hq, hextended⟩ := addElements_extends h es
      refine ⟨q, ?_, ?_⟩
      · rw [addElements]
        exact hq
      · rw [RelayContext.elementTexts]
        exact hextended
    | some py =>
      obtain ⟨q, hq, hextended⟩ := addPayload_extends h py false
      obtain ⟨r, hr, hmore⟩ := addElements_extends hextended es
      refine ⟨r, ?_, ?_⟩
      · rw [addElements, hq]
        exact hr
      · rw [RelayContext.elementTexts, marked, List.map_append, ← List.append_assoc]
        exact hmore

end

end

namespace RelayContext

section

variable {d : RelayContext} {fs rest : List ForwardParm} {pf : ForwardParm} {p q : Parse} {args : List Arg}
  {last : Bool} {words : Words} {n k : Nat}

theorem args_length (d : RelayContext) : d.po.args.length = d.size := by
  have hle : d.po.pGot ≤ d.po.pArgs.length := d.got_le
  simp only [Parse.args, Parse.message, List.length_map, List.length_take, size]
  omega

/-- A variable without what the parameter asks of it is asked for a part. -/
theorem findPayload_none {vx : Vrbl} {path : Option Text} (h : findPayload vx path = none) :
    (pathSuffix path).isSome := by
  cases hsuffix : pathSuffix path with
  | some suffix => rfl
  | none =>
    rw [findPayload, hsuffix] at h
    cases hpayload : vx.vPayload with
    | string u =>
      rw [hpayload] at h
      cases h
    | tree m =>
      rw [hpayload] at h
      cases h
    | array es =>
      rw [hpayload] at h
      cases h

theorem expansion_single (hop : pf.pOp = .single) :
    d.expansion pf = some [(d.po.args[pf.pNum]?.map Arg.text).getD []] := by
  rw [expansion, hop]

theorem expansion_var (hop : pf.pOp = .var) : d.expansion pf =
    ((d.findVariable (pf.pStr.getD [])).bind fun vx => findPayload vx pf.pStr).map payloadTexts := by
  rw [expansion, hop]

theorem addParm_var (hop : pf.pOp = .var) : d.addParm pf last p =
    match d.findVariable (pf.pStr.getD []) with
    | none => .refused
    | some vx =>
      match findPayload vx pf.pStr with
      | none => .refused
      | some py => addPayloadVrbl vx (some py) p last := by
  rw [addParm, hop]
  cases hv : d.findVariable (pf.pStr.getD []) with
  | none => rfl
  | some vx =>
    cases hpy : findPayload vx pf.pStr with
    | none =>
      dsimp only
      rw [hpy, if_pos ⟨rfl, findPayload_none hpy⟩]
    | some py =>
      dsimp only
      rw [hpy, if_neg (fun h => Bool.false_ne_true h.1)]

theorem addParm_refused (he : d.expansion pf = none) : d.addParm pf last p = .refused := by
  cases hop : pf.pOp with
  | litteral =>
    rw [expansion, hop] at he
    cases he
  | single =>
    rw [expansion_single hop] at he
    cases he
  | trail =>
    rw [expansion, hop] at he
    dsimp only at he
    split at he
    next => cases he
    next hlt =>
      rw [addParm, hop]
      exact if_neg hlt
  | var =>
    rw [expansion_var hop, Option.map_eq_none_iff] at he
    rw [addParm_var hop]
    cases hv : d.findVariable (pf.pStr.getD []) with
    | none => rfl
    | some vx =>
      rw [hv] at he
      dsimp only
      rw [show findPayload vx pf.pStr = none from he]
  | specialGroup =>
    rw [expansion, hop, Option.map_eq_none_iff] at he
    rw [addParm, hop, he]
  | specialClient =>
    rw [expansion, hop, Option.map_eq_none_iff] at he
    rw [addParm, hop, he]

theorem addParm_hidden (hhid : d.NamesHidden pf) (he : d.expansion pf = some words) :
    d.addParm pf last p = .aborted := by
  obtain ⟨hop, vx, hv, hflag⟩ := hhid
  rw [expansion_var hop, hv] at he
  obtain ⟨py, hpy, _⟩ := Option.map_eq_some_iff.mp he
  rw [addParm_var hop, hv]
  dsimp only
  rw [show findPayload vx pf.pStr = some py from hpy]
  exact if_pos hflag

theorem addParm_extends (h : Extended false p args) (hhid : ¬ d.NamesHidden pf) (he : d.expansion pf = some words)
    (last : Bool) : ∃ q, d.addParm pf last p = .added q ∧ Extended last q (args ++ marked words) := by
  have hbuffer : ∀ text, [text] = words → ∃ q, AddResult.ofOption (addBuffer p false last text) = .added q ∧
      Extended last q (args ++ marked words) := by
    intro text hwords
    obtain ⟨q, hq, hextended⟩ := addBuffer_extends h last text
    exact ⟨q, by rw [hq]; rfl, hwords ▸ hextended⟩
  cases hop : pf.pOp with
  | litteral =>
    rw [expansion, hop] at he
    rw [addParm, hop]
    exact hbuffer _ (Option.some.inj he)
  | single =>
    rw [expansion_single hop] at he
    rw [addParm, hop]
    dsimp only
    split
    next hlt =>
      have hget := List.getElem?_eq_getElem (hlt.trans_eq d.args_length.symm)
      rw [hget] at he
      obtain ⟨q, hq, hextended⟩ := addParameter_extends h hget last
      exact ⟨q, hq, Option.some.inj he ▸ hextended⟩
    next hge =>
      rw [List.getElem?_eq_none (d.args_length.trans_le (Nat.le_of_not_lt hge))] at he
      exact hbuffer _ (Option.some.inj he)
  | trail =>
    rw [expansion, hop] at he
    rw [addParm, hop]
    dsimp only at he ⊢
    split at he
    next hlt =>
      rw [if_pos hlt]
      obtain ⟨q, hq, hextended⟩ := addTrailing_extends h hlt d.args_length last
      exact ⟨q, hq, Option.some.inj he ▸ hextended⟩
    next => cases he
  | var =>
    rw [expansion_var hop] at he
    obtain ⟨py, hpy, hwords⟩ := Option.map_eq_some_iff.mp he
    obtain ⟨vx, hv, hfound⟩ := Option.bind_eq_some_iff.mp hpy
    have hshown : vx.vFlags &&& vrfHid = 0 := by
      by_contra hflag
      exact hhid ⟨hop, vx, hv, hflag⟩
    rw [addParm_var hop, hv]
    dsimp only
    rw [hfound]
    obtain ⟨q, hq, hextended⟩ := addPayload_extends h py last
    refine ⟨q, ?_, hwords ▸ hextended⟩
    exact (if_neg (not_not_intro hshown)).trans hq
  | specialGroup =>
    rw [expansion, hop] at he
    obtain ⟨name, hname, hwords⟩ := Option.map_eq_some_iff.mp he
    rw [addParm, hop, hname]
    exact hbuffer name hwords
  | specialClient =>
    rw [expansion, hop] at he
    obtain ⟨name, hname, hwords⟩ := Option.map_eq_some_iff.mp he
    rw [addParm, hop, hname]
    exact hbuffer name hwords

theorem hiddenUnshown_of_none (he : d.expansion pf = none) : d.HiddenUnshown (pf :: rest) :=
  fun i _ _ _ => ⟨0, Nat.zero_le i, pf, rfl, he⟩

theorem hiddenUnshown_cons (he : d.expansion pf = some words) :
    d.HiddenUnshown (pf :: rest) ↔ ¬ d.NamesHidden pf ∧ d.HiddenUnshown rest := by
  constructor
  · intro h
    refine ⟨fun hhid => ?_, fun i pg hi hhid => ?_⟩
    · obtain ⟨j, hj, pg, hpg, hnone⟩ := h 0 pf rfl hhid
      cases Nat.le_zero.mp hj
      cases Option.some.inj hpg
      rw [he] at hnone
      cases hnone
    · obtain ⟨j, hj, pg', hpg, hnone⟩ := h (i + 1) pg hi hhid
      cases j with
      | zero =>
        cases Option.some.inj hpg
        rw [he] at hnone
        cases hnone
      | succ j => exact ⟨j, Nat.le_of_succ_le_succ hj, pg', hpg, hnone⟩
  · rintro ⟨hpf, hrest⟩ i pg hi hhid
    cases i with
    | zero =>
      cases Option.some.inj hi
      exact absurd hhid hpf
    | succ i =>
      obtain ⟨j, hj, pg', hpg, hnone⟩ := hrest i pg hi hhid
      exact ⟨j + 1, Nat.succ_le_succ hj, pg', hpg, hnone⟩

/-- The program aborts just where a hidden variable is come to. -/
theorem addParms_aborted_iff (h : Extended fs.isEmpty p args) :
    d.addParms fs p = .aborted ↔ ¬ d.HiddenUnshown fs := by
  induction fs generalizing p args with
  | nil => exact iff_of_false nofun (not_not_intro nofun)
  | cons pf rest ih =>
    rw [addParms]
    cases he : d.expansion pf with
    | none =>
      rw [addParm_refused he]
      exact iff_of_false nofun (not_not_intro (hiddenUnshown_of_none he))
    | some words =>
      rw [hiddenUnshown_cons he]
      by_cases hhid : d.NamesHidden pf
      · rw [addParm_hidden hhid he]
        exact iff_of_true rfl fun hboth => hboth.1 hhid
      · obtain ⟨q, hq, hextended⟩ := addParm_extends h hhid he rest.isEmpty
        rw [hq]
        exact (ih hextended).trans (not_congr (and_iff_right hhid).symm)

/-- Each turn puts in what its parameter stands for, and the last one the mark of the end. -/
theorem addParms_added (h : Extended fs.isEmpty p args) (hadd : d.addParms fs p = .added q) :
    ∃ words, d.expansions fs = some words ∧ Extended true q (args ++ marked words) := by
  induction fs generalizing p args with
  | nil =>
    cases hadd
    exact ⟨[], rfl, by simpa [marked] using h⟩
  | cons pf rest ih =>
    rw [addParms] at hadd
    cases he : d.expansion pf with
    | none =>
      rw [addParm_refused he] at hadd
      cases hadd
    | some words =>
      by_cases hhid : d.NamesHidden pf
      · rw [addParm_hidden hhid he] at hadd
        cases hadd
      · obtain ⟨p', hp', hextended⟩ := addParm_extends h hhid he rest.isEmpty
        rw [hp'] at hadd
        obtain ⟨more, hmore, hwhole⟩ := ih hextended hadd
        refine ⟨words ++ more, ?_, ?_⟩
        · rw [expansions, he, hmore]
          rfl
        · rw [marked, List.map_append, ← List.append_assoc]
          exact hwhole

theorem trimmed_none (h : d.trimmed fs n = none) {i : Nat} (hi : i < n) (hpf : fs[i]? = some pf) :
    d.stopsAt pf = false := by
  induction n with
  | zero => cases hi
  | succ n ih =>
    rw [trimmed] at h
    split at h
    next => cases h
    next hstop =>
      rcases Nat.lt_succ_iff_lt_or_eq.mp hi with hlt | rfl
      · exact ih h hlt
      · simpa [hpf] using hstop

theorem trimmed_some (h : d.trimmed fs n = some k) : (∃ pf, fs[k]? = some pf ∧ d.stopsAt pf = true) ∧
    ∀ i pf, k < i → i < n → fs[i]? = some pf → d.stopsAt pf = false := by
  induction n with
  | zero => cases h
  | succ n ih =>
    rw [trimmed] at h
    split at h
    next hstop =>
      cases Option.some.inj h
      exact ⟨(Option.any_eq_true _ _).mp hstop, fun i pf hki hin => by omega⟩
    next hstop =>
      obtain ⟨hat, hbehind⟩ := ih h
      refine ⟨hat, fun i pf hki hin hpf => ?_⟩
      rcases Nat.lt_succ_iff_lt_or_eq.mp hin with hlt | rfl
      · exact hbehind i pf hki hlt hpf
      · simpa [hpf] using hstop

/-- What the trimming leaves out is not available. -/
theorem not_available (h : d.stopsAt pf = false) : ¬ d.Available pf := by
  unfold stopsAt at h
  unfold Available
  cases hop : pf.pOp with
  | single =>
    rw [hop] at h
    exact of_decide_eq_false h
  | trail =>
    rw [hop] at h
    rw [expansion, hop]
    dsimp only
    rw [if_neg (of_decide_eq_false h)]
    nofun
  | var =>
    rw [hop] at h
    dsimp only at h ⊢
    rw [expansion_var hop, Option.isSome_map, h]
    nofun
  | litteral =>
    rw [hop] at h
    cases h
  | specialGroup =>
    rw [hop] at h
    cases h
  | specialClient =>
    rw [hop] at h
    cases h

theorem available (h : d.stopsAt pf = true) (he : d.expansion pf = some words) : d.Available pf := by
  unfold stopsAt at h
  unfold Available
  cases hop : pf.pOp with
  | single =>
    rw [hop] at h
    exact of_decide_eq_true h
  | trail => exact he ▸ rfl
  | var => exact he ▸ rfl
  | litteral => exact he ▸ rfl
  | specialGroup => exact he ▸ rfl
  | specialClient => exact he ▸ rfl

theorem expansion_hidden (hhid : d.NamesHidden pf) (h : d.stopsAt pf = false) : d.expansion pf = none := by
  have hgone := not_available h
  rw [Available, hhid.1] at hgone
  exact Option.not_isSome_iff_eq_none.mp hgone

/-- The trimmed parameters name no hidden variable that is shown. -/
theorem hiddenUnshown_take (h : ∀ i pf, k < i → i < fs.length → fs[i]? = some pf → d.stopsAt pf = false) :
    d.HiddenUnshown (fs.take (k + 1)) ↔ d.HiddenUnshown fs := by
  have htake : ∀ i, i ≤ k → (fs.take (k + 1))[i]? = fs[i]? := fun i hi => List.getElem?_take_of_lt (by omega)
  constructor
  · intro hkept i pf hi hhid
    by_cases hle : i ≤ k
    · obtain ⟨j, hj, pg, hpg, hnone⟩ := hkept i pf (htake i hle ▸ hi) hhid
      exact ⟨j, hj, pg, htake j (hj.trans hle) ▸ hpg, hnone⟩
    · have hlt := (List.getElem?_eq_some_iff.mp hi).1
      exact ⟨i, le_rfl, pf, hi, expansion_hidden hhid (h i pf (by omega) hlt hi)⟩
  · intro hall i pf hi hhid
    have hlt := (List.getElem?_eq_some_iff.mp hi).1
    rw [List.length_take] at hlt
    have hle : i ≤ k := by omega
    obtain ⟨j, hj, pg, hpg, hnone⟩ := hall i pf (htake i hle ▸ hi) hhid
    exact ⟨j, hj, pg, (htake j (hj.trans hle)).trans hpg, hnone⟩

/-- The message starts with its name and that of the peer. -/
theorem relay_opens (name : Text) : ∃ px, ((addBuffer createParse true false (textOf "?relay")).bind fun px =>
      addBuffer px false false name) = some px ∧ Extended false px (marked [textOf "?relay", name]) := by
  have hempty : Staged createParse [] := building_iff.mp createParse_building
  obtain ⟨p, hp, hstaged, hstate⟩ := addBuffer_staged hempty (fun (_ : true = true) => ⟨rfl, rfl⟩)
    (fun hf => by cases hf) false (textOf "?relay")
  obtain ⟨q, hq, hextended⟩ := addBuffer_extends ⟨hstaged, hstate, List.cons_ne_nil _ _⟩ false name
  exact ⟨q, by rw [hp]; exact hq, hextended⟩

theorem take_nonempty (hk : fs[k]? = some pf) : (fs.take (k + 1)).isEmpty = false := by
  cases fs with
  | nil => cases hk
  | cons pg rest => rfl

theorem generateRelayForward_aborted_iff (name : Text) :
    d.generateRelayForward fs name = .aborted ↔ ¬ d.HiddenUnshown fs := by
  obtain ⟨px, hpx, hextended⟩ := relay_opens name
  rw [generateRelayForward, hpx]
  dsimp only
  cases htrim : d.trimmed fs fs.length with
  | none =>
    refine iff_of_false nofun (not_not_intro fun i pf hi hhid => ⟨i, le_rfl, pf, hi, ?_⟩)
    exact expansion_hidden hhid (trimmed_none htrim (List.getElem?_eq_some_iff.mp hi).1 hi)
  | some k =>
    obtain ⟨⟨pf, hk, _⟩, hbehind⟩ := trimmed_some htrim
    rw [← take_nonempty hk] at hextended
    rw [← hiddenUnshown_take hbehind]
    exact addParms_aborted_iff hextended

theorem expansions_mem (h : d.expansions fs = some words) (hpf : pf ∈ fs) : ∃ more, d.expansion pf = some more := by
  induction fs generalizing words with
  | nil => cases hpf
  | cons pg rest ih =>
    obtain ⟨first, hfirst, h⟩ := Option.bind_eq_some_iff.mp h
    obtain ⟨more, hmore, h⟩ := Option.bind_eq_some_iff.mp h
    rcases List.mem_cons.mp hpf with rfl | hmem
    · exact ⟨first, hfirst⟩
    · exact ih hmore hmem

theorem generateRelayForward_added {name : Text} (h : d.generateRelayForward fs name = .added q) :
    d.Relayed fs name (.added q) := by
  obtain ⟨px, hpx, hextended⟩ := relay_opens name
  rw [generateRelayForward, hpx] at h
  dsimp only at h
  cases htrim : d.trimmed fs fs.length with
  | none =>
    rw [htrim] at h
    cases h
  | some k =>
    rw [htrim] at h
    obtain ⟨⟨pf, hk, hstop⟩, hbehind⟩ := trimmed_some htrim
    rw [← take_nonempty hk] at hextended
    obtain ⟨words, hwords, hwhole⟩ := addParms_added hextended h
    have hlast : (fs.take (k + 1)).getLast? = some pf := by
      have hlt := (List.getElem?_eq_some_iff.mp hk).1
      rw [List.getLast?_eq_getElem?, List.length_take, Nat.min_eq_left (by omega), Nat.add_sub_cancel,
        List.getElem?_take_of_lt (Nat.lt_succ_self k), hk]
    obtain ⟨more, hmore⟩ := expansions_mem hwords (List.mem_of_getLast? hlast)
    refine Or.inr ⟨q, fs.take (k + 1), fs.drop (k + 1), words, rfl, hwhole.state, (List.take_append_drop _ _).symm,
      ⟨pf, hlast, available hstop hmore⟩, fun pg hpg => ?_, hwords, ?_⟩
    · obtain ⟨i, hi⟩ := List.mem_iff_getElem?.mp hpg
      rw [List.getElem?_drop] at hi
      exact not_available (hbehind _ pg (by omega) (List.getElem?_eq_some_iff.mp hi).1 hi)
    · rw [hwhole.staged.args, marked, marked, ← List.map_append, List.map_map]
      exact List.map_id _

theorem relayed_iff (name : Text) :
    d.Relayed fs name (d.generateRelayForward fs name) ↔ d.HiddenUnshown fs := by
  cases hr : d.generateRelayForward fs name with
  | aborted =>
    refine iff_of_false ?_ (generateRelayForward_aborted_iff name |>.mp hr)
    rintro (hrefused | ⟨px, _, _, _, hadded, _⟩)
    · cases hrefused
    · cases hadded
  | refused =>
    refine iff_of_true (Or.inl rfl) ?_
    by_contra hshown
    cases hr.symm.trans ((generateRelayForward_aborted_iff name).mpr hshown)
  | added q =>
    refine iff_of_true (generateRelayForward_added hr) ?_
    by_contra hshown
    cases hr.symm.trans ((generateRelayForward_aborted_iff name).mpr hshown)

/-- Every template is relayed whole, with the arguments that it names, exactly where sixteen bits are enough for
its numbers and it comes to no hidden variable. -/
theorem relay_template_relays (d : RelayContext) {template : List (Option Text)} {fs : List ForwardParm}
    (h : symbolicVector template = some fs) (name : Text) :
    ((∀ (k : Nat) text pf, template[k]? = some (some text) → fs[k]? = some pf → Selects d.size text pf) ∧
      d.Relayed fs name (d.generateRelayForward fs name)) ↔
    (∀ text number, some text ∈ template → numberPart text = some number → NumberKept d.size number) ∧
      d.HiddenUnshown fs := by
  refine and_congr ⟨fun hs text number htext hnumber => ?_, fun hkept k text pf hk hpf number hnumber => ?_⟩
    (relayed_iff name)
  · obtain ⟨k, hk⟩ := List.mem_iff_getElem?.mp htext
    obtain ⟨pf, hpf, hparse⟩ := symbolicVector_get h hk
    exact (selects_iff hnumber hparse).mp (hs k text pf hk hpf)
  · obtain ⟨pf', hpf', hparse⟩ := symbolicVector_get h hk
    cases Option.some.inj (hpf.symm.trans hpf')
    exact (selects_iff hnumber hparse).mpr (hkept text number (List.mem_of_getElem? hk) hnumber) number hnumber

end

end RelayContext

/-- A client that asks for `?set a b`, and has a variable with some flags. -/
def sampleRelay (flags : Nat) : RelayContext where
  shared := ⟨[⟨some (textOf "lab"), [some (textOf "me")]⟩], fun rx =>
    if rx = .flat ⟨0, 0⟩ then [(textOf "v", ⟨flags, .string (some (textOf "x"))⟩)] else []⟩
  fx := ⟨0, 0⟩
  po := { createParse with
    pState := .done
    pBuffer := textOf "?set" ++ 0 :: byte 'a' :: 0 :: byte 'b' :: [0]
    pArgs := [⟨0, 4, 1⟩, ⟨5, 6, 1⟩, ⟨7, 8, 1⟩]
    pGot := 3 }
  got_le := by decide

def sampleTemplate : List (Option Text) :=
  ["put", "%9", "$v", "%g", "%1+", "%7", "$w"].map fun str => some (textOf str)

def sampleForward : List ForwardParm :=
  [⟨.litteral, 0, some (textOf "put")⟩, ⟨.single, 9, none⟩, ⟨.var, 0, some (textOf "v")⟩, ⟨.specialGroup, 0, none⟩,
    ⟨.trail, 1, none⟩, ⟨.single, 7, none⟩, ⟨.var, 0, some (textOf "w")⟩]

theorem sampleTemplate_kept {text number : Text} (htext : some text ∈ sampleTemplate)
    (hnumber : numberPart text = some number) : NumberKept 3 number := by
  have hall : ∀ str ∈ sampleTemplate, ((str.bind numberPart).all fun number =>
      decide (0 ≤ writtenNumber number ∧ writtenNumber number < 2 ^ 16)) = true := by decide
  have hstr := hall _ htext
  rw [Option.bind_some, hnumber] at hstr
  exact Or.inl (of_decide_eq_true hstr)

theorem sampleForward_shown : (sampleRelay 0).HiddenUnshown sampleForward := by
  have hall : ∀ pf ∈ sampleForward, (((sampleRelay 0).findVariable (pf.pStr.getD [])).all fun vx =>
      decide (vx.vFlags &&& vrfHid = 0)) = true := by decide
  intro i pf hi hhid
  obtain ⟨_, vx, hv, hflag⟩ := hhid
  have hshown := hall pf (List.mem_of_getElem? hi)
  rw [hv] at hshown
  exact absurd (of_decide_eq_true hshown) hflag

theorem relay_template_relays_set : (sampleRelay 0).Relayed sampleForward (textOf "peer")
    ((sampleRelay 0).generateRelayForward sampleForward (textOf "peer")) := by
  have hloaded : symbolicVector sampleTemplate = some sampleForward := by decide
  exact ((RelayContext.relay_template_relays (sampleRelay 0) hloaded _).mpr
    ⟨fun _ _ => sampleTemplate_kept, sampleForward_shown⟩).2

/-- The number 65536 selects the name of the request, and a hidden variable is fatal. -/
theorem relay_template_narrowed : (¬ ∀ (d : RelayContext) (template : List (Option Text)) (fs : List ForwardParm)
      (name : Text), symbolicVector template = some fs →
      (∀ (k : Nat) text pf, template[k]? = some (some text) → fs[k]? = some pf → Selects d.size text pf) ∧
      d.Relayed fs name (d.generateRelayForward fs name)) ∧
    (sampleRelay vrfHid).generateRelayForward [⟨.var, 0, some (textOf "v")⟩] (textOf "peer") = .aborted := by
  refine ⟨fun h => ?_, by decide⟩
  have hloaded : symbolicVector [some (textOf "%65536")] = some [⟨.single, 0, none⟩] := by decide
  have hnumber : numberPart (textOf "%65536") = some (textOf "65536") := by decide
  have hzero := ((h (sampleRelay 0) _ _ [] hloaded).1 0 _ _ rfl rfl _ hnumber).2 0 (by decide)
  revert hzero
  decide

end Katcp
