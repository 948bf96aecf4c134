import Katcp.GrammarExact
import Katcp.BoundedCopy
import Katcp.DuplexData

namespace Katcp

open Memory

/-- The tag of a message is the number its digits denote; for one that is no `int` the message has
no tag, or is rejected. -/
def TagRead (digits : List Byte) : Option LineEvent → Prop
  | some (.message _ m) => if decimal digits < 2 ^ 31 then m.tag.toInt = decimal digits else m.tag = -1
  | some (.error _) => 2 ^ 31 ≤ decimal digits
  | none => False

section

variable {lines : List LineSyntax} {t : LineSyntax} {digits : List Byte} {escapes : Byte → Bool}

/-- Each line that is read whole makes a message. -/
theorem run_lines (h : ∀ l ∈ lines, l.Ok escapes) (n : Nat) :
    ∃ front, scanner.run ⟨n, some .start⟩ (lines.flatMap LineSyntax.source) =
      (⟨n + (lines.flatMap LineSyntax.source).length, some .start⟩, front) ∧ front.length = lines.length := by
  induction lines generalizing n with
  | nil => exact ⟨[], rfl, rfl⟩
  | cons l rest ih =>
    obtain ⟨front, hrun, hlen⟩ := ih (fun k hk => h k (List.mem_cons_of_mem _ hk)) (n + l.source.length)
    refine ⟨.message (n + l.source.length) l.message :: front, ?_, congrArg (· + 1) hlen⟩
    rw [List.flatMap_cons, Transducer.run_append, run_line (h l List.mem_cons_self), hrun, List.length_append,
      Nat.add_assoc]
    rfl

theorem tag_toInt (n : Nat) : (Int32.ofNat n).toInt = asInt n := Int32.toInt_ofNat'

theorem tag_none_iff {n : Nat} : Int32.ofNat n = -1 ↔ n % 2 ^ 32 = 2 ^ 32 - 1 := by
  rw [← Int32.toInt_inj, tag_toInt]
  obtain ⟨k, hk⟩ : ((2 ^ 32 : Nat) : Int) ∣ n - asInt n := Int.dvd_self_sub_bmod
  have hlt := asInt_lt n
  have hge := asInt_ge n
  have hone : (-1 : Int32).toInt = -1 := by decide
  rw [hone]
  constructor
  · intro heq
    omega
  · intro hmod
    omega

/-- A line that comes after whole lines is the message of its number. -/
theorem session_line {chunks : List Chunk} {events : List LineEvent} {rest : List Byte}
    (h : session chunks = some events) (hlines : ∀ l ∈ lines, l.Ok anyEscape) (ht : t.Ok anyEscape)
    (hbytes : chunks.flatMap Chunk.bytes = lines.flatMap LineSyntax.source ++ (t.source ++ rest)) :
    ∃ offset, events[lines.length]? = some (.message offset t.message) := by
  obtain ⟨front, hrun, hlen⟩ := run_lines hlines 0
  rw [session_eq_scanner h, hbytes, Transducer.run_append, hrun]
  dsimp only
  rw [Transducer.run_append, run_line ht]
  refine ⟨0 + (lines.flatMap LineSyntax.source).length + t.source.length, ?_⟩
  rw [List.getElem?_append_right hlen.le, hlen, Nat.sub_self]
  rfl

end

/-- However its line is cut into pieces, the tag of a message is right when its number is an `int`, or
wraps to the one that stands for no tag. -/
theorem tag_read (chunks : List Chunk) (events : List LineEvent) (lines : List LineSyntax) (t : LineSyntax)
    (digits : List Byte) (rest : List Byte) (h : session chunks = some events) (hlines : ∀ l ∈ lines, l.Ok anyEscape)
    (ht : t.Ok anyEscape) (htag : t.tag = some digits)
    (hbytes : chunks.flatMap Chunk.bytes = lines.flatMap LineSyntax.source ++ (t.source ++ rest)) :
    TagRead digits events[lines.length]? ↔ decimal digits < 2 ^ 31 ∨ decimal digits % 2 ^ 32 = 2 ^ 32 - 1 := by
  obtain ⟨offset, hevent⟩ := session_line h hlines ht hbytes
  have hvalue : t.message.tag = Int32.ofNat (decimal digits) := by
    rw [LineSyntax.message, LineStart.tagValue, htag]
  rw [hevent, TagRead, hvalue]
  split
  next hsmall => exact iff_of_true ((tag_toInt _).trans (asInt_small hsmall)) (.inl hsmall)
  next hlarge => rw [tag_none_iff, or_iff_right hlarge]

def taggedLine (digits : List Byte) : LineSyntax := ⟨⟨[], byte '?', textOf "a", some digits, []⟩, [], byte '\n'⟩

theorem taggedLine_ok {digits : List Byte} (h : digits.all isDigit = true) : (taggedLine digits).Ok anyEscape where
  start :=
    { skipped := nofun
      kind := (by decide : isType (byte '?') = true)
      word := List.all_eq_true.mp (by decide : (textOf "a").all wordByte = true)
      digits := fun _ htag => Option.some.inj htag ▸ List.all_eq_true.mp h
      args := nofun
      apart := fun first a rest hargs => by simp [taggedLine] at hargs }
  blanks := nofun
  ending := (by decide : isNewline (byte '\n') = true)

/-- The second tag is cut in two. -/
theorem tag_read_cut :
    TagRead (textOf "17") (some (.message 13 ⟨[⟨textOf "?a", 0⟩], 17⟩)) :=
  (tag_read [⟨.load (textOf "?a[3]\n?a[1"), true⟩, ⟨.load (textOf "7]\n"), false⟩]
    [.message 6 ⟨[⟨textOf "?a", 0⟩], 3⟩, .message 13 ⟨[⟨textOf "?a", 0⟩], 17⟩] [taggedLine (textOf "3")]
    (taggedLine (textOf "17")) (textOf "17") [] (by decide)
    (fun l hl => List.mem_singleton.mp hl ▸ taggedLine_ok (by decide)) (taggedLine_ok (by decide)) rfl
    (by decide)).mpr (.inl (by decide))

/-- The first number that is no `int` makes a negative tag. -/
theorem tag_wraps :
    session [⟨.load (textOf "?a[2147483648]\n"), true⟩] =
      some [.message 15 ⟨[⟨textOf "?a", 0⟩], -2147483648⟩] ∧
    ¬ TagRead (textOf "2147483648") (some (.message 15 ⟨[⟨textOf "?a", 0⟩], -2147483648⟩)) := by
  refine ⟨by decide, ?_⟩
  rw [TagRead, if_neg (by decide)]
  decide

end Katcp
