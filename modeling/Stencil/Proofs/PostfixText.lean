import Stencil.Json.Number
import Mathlib.Data.Nat.Digits.Defs

/-!
# A text format that carries every value

JSON values in postfix notation: the members of an array stand in front of their count, and so do
those of an object, each followed by its name; a text is the codes of its characters, and a double
its bits. A reader needs no look-ahead and no nesting, only a stack of what it has read.

Main statement: `read_write`, that every readable value is read as it was written. Text of this kind
knows no limits: neither the depth of a value nor the size or precision of its numbers counts.
-/

namespace Stencil.Json.Postfix

/-! ### Writing -/

/-- The decimal digits of a number; zero has none. -/
def digits (n : Nat) : List Char := (Nat.digits 10 n).reverse.map Nat.digitChar

/-- The codes of characters. -/
def codes (cs : List Char) : List Char := cs.flatMap fun c => digits c.toNat ++ ['c']

mutual

/-- The characters of a value. -/
def written : Json → List Char
  | .null => ['n']
  | .unreadable => []
  | .bool true => ['t']
  | .bool false => ['f']
  | .number (.int value) => digits value.natAbs ++ [if value < 0 then '-' else '+']
  | .number (.float value) => digits value.bits.toNat ++ ['b']
  | .string s => codes s.toList ++ ['s']
  | .array items => writtenItems items ++ digits items.length ++ [']']
  | .object fields => writtenFields fields ++ digits fields.length ++ ['\x7d']
termination_by structural j => j

/-- Items one after another. -/
def writtenItems : List Json → List Char
  | [] => []
  | item :: rest => written item ++ writtenItems rest
termination_by structural items => items

/-- Fields one after another, each name behind its value. -/
def writtenFields : List (String × Json) → List Char
  | [] => []
  | (name, value) :: rest => written value ++ codes name.toList ++ [':'] ++ writtenFields rest
termination_by structural fields => fields

end

/-- The text of a value. -/
def write (j : Json) : String := String.ofList (written j)

/-! ### Reading -/

/-- What a reader has in front of it. -/
structure Reader where
  /-- The number of the digits that were read last. -/
  number : Nat
  /-- The characters that were read last, in reverse order. -/
  chars : List Char
  /-- The values that were read, each with its name, the last one first. A value that has no name
  has the empty one. -/
  stack : List (String × Json)

namespace Reader

/-- The reader in front of a text. -/
def start : Reader := ⟨0, [], []⟩

/-- Adds a value. -/
def push (r : Reader) (value : Json) : Reader := ⟨0, [], ("", value) :: r.stack⟩

/-- The text of the last characters. -/
def text (r : Reader) : String := String.ofList r.chars.reverse

/-- The last values, as many as the number says. -/
def members (r : Reader) : List (String × Json) := (r.stack.take r.number).reverse

/-- Puts a value in the place of its members. -/
def gather (r : Reader) (value : Json) : Reader := ⟨0, [], ("", value) :: r.stack.drop r.number⟩

/-- Names the last value. -/
def name (r : Reader) : Reader :=
  match r.stack with
  | [] => r
  | (_, value) :: rest => ⟨0, [], (r.text, value) :: rest⟩

/-- Reads a character that is no digit. -/
def mark (r : Reader) : Char → Reader
  | 'n' => r.push .null
  | 't' => r.push (.bool true)
  | 'f' => r.push (.bool false)
  | '+' => r.push (.int r.number)
  | '-' => r.push (.int (-r.number))
  | 'b' => r.push (.number (.float ⟨.ofNat r.number⟩))
  | 'c' => ⟨0, Char.ofNat r.number :: r.chars, r.stack⟩
  | 's' => r.push (.string r.text)
  | ':' => r.name
  | ']' => r.gather (.array (r.members.map Prod.snd))
  | '\x7d' => r.gather (.object r.members)
  | _ => r

/-- Reads a character. -/
def step (r : Reader) (c : Char) : Reader :=
  if c.isDigit then { r with number := r.number * 10 + Number.digitValue c } else r.mark c

/-- Reads characters one after another. -/
def run (r : Reader) (cs : List Char) : Reader := cs.foldl step r

theorem run_append (r : Reader) (cs cs' : List Char) : r.run (cs ++ cs') = (r.run cs).run cs' :=
  List.foldl_append

theorem run_snoc (r : Reader) (cs : List Char) (c : Char) :
    r.run (cs ++ [c]) = (r.run cs).step c := by
  rw [run_append]
  rfl

end Reader

/-- Reads a value. -/
def read (text : String) : Option Json :=
  match (Reader.start.run text.toList).stack with
  | [(_, value)] => some value
  | _ => none

theorem step_digitChar (r : Reader) {d : Nat} (small : d < 10) :
    r.step (Nat.digitChar d) = { r with number := r.number * 10 + d } := by
  have digit : ∀ d < 10, (Nat.digitChar d).isDigit = true ∧
      Number.digitValue (Nat.digitChar d) = d := by decide
  obtain ⟨isDigit, value⟩ := digit d small
  rw [Reader.step, if_pos isDigit, value]

/-- A number is read from its digits. -/
theorem run_digits (n : Nat) (chars : List Char) (stack : List (String × Json)) :
    Reader.run ⟨0, chars, stack⟩ (digits n) = ⟨n, chars, stack⟩ := by
  have each (ds : List Nat) (small : ∀ d ∈ ds, d < 10) :
      Reader.run ⟨0, chars, stack⟩ (ds.reverse.map Nat.digitChar) =
        ⟨Nat.ofDigits 10 ds, chars, stack⟩ := by
    induction ds with
    | nil => rfl
    | cons d rest ih =>
      rw [List.forall_mem_cons] at small
      rw [List.reverse_cons, List.map_append, List.map_singleton, Reader.run_snoc, ih small.2,
        step_digitChar _ small.1, Nat.ofDigits_cons, Nat.mul_comm, Nat.add_comm]
  rw [digits, each _ fun d member => Nat.digits_lt_base (by decide) member, Nat.ofDigits_digits]

/-- Characters are read from their codes. -/
theorem run_codes (cs chars : List Char) (stack : List (String × Json)) :
    Reader.run ⟨0, chars, stack⟩ (codes cs) = ⟨0, cs.reverse ++ chars, stack⟩ := by
  induction cs generalizing chars with
  | nil => rfl
  | cons c rest ih =>
    rw [codes, List.flatMap_cons, Reader.run_append, Reader.run_snoc, run_digits]
    change Reader.run ⟨0, Char.ofNat c.toNat :: chars, stack⟩ (codes rest) = _
    rw [ih, Char.ofNat_toNat, List.reverse_cons, List.append_assoc, List.singleton_append]

mutual

/-- Reading the text of a value puts the value on the stack. -/
theorem run_written (j : Json) (readable : j.isReadable) (stack : List (String × Json)) :
    Reader.run ⟨0, [], stack⟩ (written j) = ⟨0, [], ("", j) :: stack⟩ := by
  cases j with
  | null => rfl
  | unreadable => cases readable
  | bool value => cases value <;> rfl
  | number value =>
    cases value with
    | int value =>
      rw [written, Reader.run_snoc, run_digits]
      split
      next negative =>
        have same : -(value.natAbs : Int) = value := by omega
        change (⟨0, [], ("", .int (-(value.natAbs : Int))) :: stack⟩ : Reader) = _
        rw [same]
        rfl
      next =>
        have same : (value.natAbs : Int) = value := by omega
        change (⟨0, [], ("", .int (value.natAbs : Int)) :: stack⟩ : Reader) = _
        rw [same]
        rfl
    | float value =>
      rw [written, Reader.run_snoc, run_digits]
      change (⟨0, [], ("", .number (.float ⟨.ofNat value.bits.toNat⟩)) :: stack⟩ : Reader) = _
      rw [UInt64.ofNat_toNat]
  | string s =>
    rw [written, Reader.run_snoc, run_codes]
    change (⟨0, [], ("", .string (String.ofList (s.toList.reverse ++ []).reverse)) :: stack⟩ :
      Reader) = _
    simp
  | array items =>
    rw [written, Reader.run_snoc, Reader.run_append, run_writtenItems items readable, run_digits]
    have gathered : Reader.members ⟨items.length, [], (items.map ("", ·)).reverse ++ stack⟩ =
        items.map ("", ·) := by simp [Reader.members]
    change Reader.gather _ (.array ((Reader.members _).map Prod.snd)) = _
    simp [gathered, Reader.gather]
  | object fields =>
    rw [written, Reader.run_snoc, Reader.run_append, run_writtenFields fields readable, run_digits]
    have gathered : Reader.members ⟨fields.length, [], fields.reverse ++ stack⟩ = fields := by
      simp [Reader.members]
    change Reader.gather _ (.object (Reader.members _)) = _
    simp [gathered, Reader.gather]
termination_by structural j

theorem run_writtenItems (items : List Json) (readable : areReadable items)
    (stack : List (String × Json)) :
    Reader.run ⟨0, [], stack⟩ (writtenItems items) =
      ⟨0, [], (items.map ("", ·)).reverse ++ stack⟩ := by
  cases items with
  | nil => rfl
  | cons item rest =>
    rw [areReadable, Bool.and_eq_true] at readable
    rw [writtenItems, Reader.run_append, run_written item readable.1,
      run_writtenItems rest readable.2]
    simp
termination_by structural items

theorem run_writtenFields (fields : List (String × Json)) (readable : fieldsReadable fields)
    (stack : List (String × Json)) :
    Reader.run ⟨0, [], stack⟩ (writtenFields fields) = ⟨0, [], fields.reverse ++ stack⟩ := by
  cases fields with
  | nil => rfl
  | cons field rest =>
    obtain ⟨name, value⟩ := field
    rw [fieldsReadable, Bool.and_eq_true] at readable
    rw [writtenFields, Reader.run_append, Reader.run_snoc, Reader.run_append,
      run_written value readable.1, run_codes]
    change Reader.run ⟨0, [], (String.ofList (name.toList.reverse ++ []).reverse, value) :: stack⟩
      (writtenFields rest) = _
    rw [run_writtenFields rest readable.2]
    simp
termination_by structural fields

end

/-- Every readable value is read as it was written. -/
theorem read_write (j : Json) (readable : j.isReadable) : read (write j) = some j := by
  rw [read, write, String.toList_ofList, Reader.start, run_written j readable]

end Stencil.Json.Postfix
