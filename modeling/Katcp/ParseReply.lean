import Katcp.LineStage
import Katcp.SharedLines

namespace Katcp

open ParseStore

/-- `misc_result_table`, which ends with a null pointer; there is nothing to be read outside it. -/
def resultTable : List (Option Text) :=
  [some (textOf "ok"), some (textOf "fail"), some (textOf "invalid"), some (textOf "partial"), none]

/-- What a reply says of a code: `KATCP_FAIL` for one without a name. -/
def replyCode (code : Int) : Option Text :=
  if 0 < code then none else resultTable[(-code).toNat]?.map fun name => name.getD (textOf "fail")

/-- The allocations of a turnaround that fail. -/
structure Shortage where
  name : Bool
  parse : Bool
  deriving DecidableEq, Repr

/-- `get_string_parse_katcl` for the name of a message. -/
def messageName (p : Parse) : Option Text := p.args.head?.map fun a => cString a.text

/-- What `vturnaround_extra_parse_katcl` puts into the message that it has for the reply; `extra` is
what the format and its arguments make. -/
def populateReply (p : Parse) (name : Text) (code : Int) (extra : Option Text) : Option Parse := do
  let p ← addBuffer p true false name
  let status ← replyCode code
  match extra with
  | some extra =>
    let p ← addUnsafe p false false status
    addArgs p false true extra
  | none => addUnsafe p false true status

/-- `vturnaround_extra_parse_katcl`, where `fresh` is what the allocator would give; there is no
answer where the program aborts. A reply is the message it is in. -/
def vturnaroundExtra (st : ParseStore) (id fresh : Nat) (code : Int) (extra : Option Text) (short : Shortage) :
    Option (ParseStore × Option Nat) := do
  let sp ← st id
  if sp.parse.pState ≠ .done then none
  else match messageName sp.parse with
  | none => some (st, none)
  | some string =>
    if short.name then some (st, none)
    else if string.head? ≠ some (byte '?') then none
    else if 1 < sp.refs ∧ short.parse then
      -- `reuse_parse_katcl` has let go of the message when it returns NULL
      some ((st.destroyParse id).destroyParse id, none)
    else do
      let (st, px) ← st.reuseParse id fresh
      let p ← populateReply (st.parse px) (byte '!' :: string.tail) code extra
      some (st.setParse px p, some px)

/-- The words of a reply to the request that `string` is the name of. -/
def replyWords (string : Text) (status : Text) (extra : Option Text) : List Text :=
  (byte '!' :: string.tail) :: status :: extra.toList

/-- The call has turned the request into its reply: the caller has a message of its own for the
reference it gave, and the others who hold the request have it as it was. -/
def TurnedAround (st : ParseStore) (id : Nat) (sp : SharedParse) (words : List Text)
    (result : Option (ParseStore × Option Nat)) : Prop :=
  ∃ st' px reply, result = some (st', some px) ∧
    st' px = some reply ∧ reply.refs = 1 ∧ reply.parse.pState = .done ∧ reply.parse.args.map Arg.text = words ∧
    (1 < sp.refs → px ≠ id ∧ st' id = some { sp with refs := sp.refs - 1 }) ∧
    ∀ k, k ≠ id → k ≠ px → st' k = st k

section

variable {st : ParseStore} {id fresh : Nat} {sp : SharedParse} {p : Parse} {args : List Arg} {text string status : Text}
  {first last : Bool} {code : Int} {extra : Option Text} {short : Shortage}

theorem addUnsafe_staged (h : Staged p args) (hfirst : first = true → args = [] ∧ p.pState = .fresh)
    (hrest : first = false → args ≠ [] ∧ p.pState = .fake) :
    ∃ q, addUnsafe p first last text = some q ∧ Staged q (args ++ [⟨text, 0⟩]) ∧
      q.pState = if last then .done else .fake := by
  obtain ⟨more, _, hbefore⟩ := beforeAdd_staged h hfirst hrest
  obtain ⟨q, hq, hstaged, hstate⟩ := afterAdd_staged h hbefore
    (requestSpace_roomy (beforeAdd_kept h hbefore) (text.length + 1)) 0 last
  exact ⟨q, by rw [addUnsafe, hbefore]; exact hq, hstaged, hstate⟩

theorem addArgs_staged (h : Staged p args) (hfirst : first = true → args = [] ∧ p.pState = .fresh)
    (hrest : first = false → args ≠ [] ∧ p.pState = .fake) :
    ∃ q, addArgs p first last text = some q ∧ Staged q (args ++ [⟨text, 1⟩]) ∧
      q.pState = if last then .done else .fake := by
  obtain ⟨more, _, hbefore⟩ := beforeAdd_staged h hfirst hrest
  obtain ⟨q, hq, hstaged, hstate⟩ := afterAdd_staged h hbefore
    (argsSpace_roomy (beforeAdd_kept h hbefore) text.length) 1 last
  exact ⟨q, by rw [addArgs, hbefore]; exact hq, hstaged, hstate⟩

theorem clearParse_staged (p : Parse) : Staged (clearParse p) [] :=
  ⟨Nat.zero_le _, rfl, Nat.zero_le _, fun la hla => by simp [clearParse] at hla, rfl⟩

/-- An empty message is populated to the whole of a reply, whatever is left in its buffer. -/
theorem populateReply_staged (h : Staged p []) (hfresh : p.pState = .fresh) (name : Text)
    (hcode : replyCode code = some status) : ∃ q, populateReply p name code extra = some q ∧ q.pState = .done ∧
      q.args.map Arg.text = name :: status :: extra.toList := by
  have hbegin : true = true → ([] : List Arg) = [] ∧ p.pState = .fresh := fun _ => ⟨rfl, hfresh⟩
  obtain ⟨p1, h1, hs1, hf1⟩ := addBuffer_staged h hbegin (fun hf => by cases hf) false name
  have hgo : false = false → ([] : List Arg) ++ [⟨name, 1⟩] ≠ [] ∧ p1.pState = .fake := fun _ => ⟨List.cons_ne_nil _ _, hf1⟩
  rw [populateReply, h1, hcode]
  cases extra with
  | none =>
    obtain ⟨p2, h2, hs2, hf2⟩ := @addUnsafe_staged _ _ status _ true hs1 (fun hf => by cases hf) hgo
    refine ⟨p2, h2, hf2, ?_⟩
    rw [hs2.args]
    rfl
  | some extra =>
    obtain ⟨p2, h2, hs2, hf2⟩ := @addUnsafe_staged _ _ status _ false hs1 (fun hf => by cases hf) hgo
    obtain ⟨p3, h3, hs3, hf3⟩ := @addArgs_staged _ _ extra false true hs2 (fun hf => by cases hf)
      (fun _ => ⟨List.cons_ne_nil _ _, hf2⟩)
    refine ⟨p3, ?_, hf3, ?_⟩
    · simp only [Option.bind_eq_bind, Option.bind_some, h2, h3]
    · rw [hs3.args]
      rfl

theorem parse_of_eq {st : ParseStore} {sp : SharedParse} (h : st id = some sp) : st.parse id = sp.parse := by
  rw [ParseStore.parse, h]
  rfl

theorem destroyParse_other {k : Nat} (h : k ≠ id) : st.destroyParse id k = st k := by
  cases hid : st id with
  | none => rw [destroyParse, hid]
  | some sp =>
    rw [destroyParse, hid]
    exact Function.update_of_ne h _ _

theorem destroyParse_held (h : st id = some sp) (hrefs : 1 < sp.refs) :
    st.destroyParse id id = some { sp with refs := sp.refs - 1 } := by
  unfold destroyParse
  rw [h]
  simp only [Function.update_self, if_neg (by omega : ¬ sp.refs ≤ 1)]

/-- What a reused message leaves: an empty one to go on with, and the others as they were. -/
theorem reuseParse_spec (h : st id = some sp) (hrefs : 1 ≤ sp.refs) (hfresh : st fresh = none) :
    ∃ st' px reply, st.reuseParse id fresh = some (st', px) ∧ st' px = some reply ∧ reply.refs = 1 ∧
      Staged reply.parse [] ∧ reply.parse.pState = .fresh ∧
      (1 < sp.refs → px ≠ id ∧ st' id = some { sp with refs := sp.refs - 1 }) ∧
      ∀ k, k ≠ id → k ≠ px → st' k = st k := by
  have hne : fresh ≠ id := by
    rintro rfl
    rw [h] at hfresh
    cases hfresh
  unfold reuseParse
  rw [h]
  dsimp only
  split
  next hle =>
    refine ⟨_, _, _, rfl, Function.update_self .., by dsimp only; omega, clearParse_staged _, rfl,
      fun hlt => absurd hlt (by omega), ?_⟩
    intro k hk _
    exact Function.update_of_ne hk _ _
  next hgt =>
    have hid : st.createReferenced fresh createParse id = some sp := by
      rw [createReferenced, Function.update_of_ne hne.symm, h]
    rw [hfresh]
    refine ⟨_, _, ⟨createParse, 1, createParse.args⟩, rfl, ?_, rfl, building_iff.mp createParse_building, rfl,
      fun hlt => ⟨hne, destroyParse_held hid hlt⟩, ?_⟩
    · rw [destroyParse_other hne, createReferenced, Function.update_self]
    · intro k hk hk'
      rw [destroyParse_other hk, createReferenced, Function.update_of_ne hk']

end

/-- A request without arguments. -/
def helpParse : Parse :=
  { createParse with
    pState := .done, pBuffer := textOf "?help" ++ [0], pHave := 6, pUsed := 6, pKept := 6, pArgs := [⟨0, 5, 1⟩], pGot := 1 }

/-- Two hold the request. -/
def helpStore : ParseStore := fun id => if id = 0 then some ⟨helpParse, 2, helpParse.args⟩ else none

end Katcp
