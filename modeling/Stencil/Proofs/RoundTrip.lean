import Stencil.Codec.Tree
import Stencil.Proofs.PostfixText
import Stencil.Tree.Walk

/-!
# Reading what was written

A tree that is written as JSON and read again is the same tree, with everything that is noted on it
and registered in its scopes. An object that a writer makes has distinct names, so that a reader
finds each of its fields (`record?_object`); a reader of nodes also asks for content that can be
read as a whole, and what is written can be.

A text format need not carry every value. Numbers are the delicate part: `Number.isCarried` says
which of them are sure to come back as they were, and a tree is written with such numbers only, as
long as its doubles are finite (`Node.consistsOf_toJson`).

Main statement: `written_read_back`.
-/

namespace Stencil

namespace Json

/-! ### Records -/

theorem onlyField?_of_not_mem {name : String} {fields : List (String × Json)}
    (absent : name ∉ fields.map Prod.fst) : onlyField? name fields = some none := by
  induction fields with
  | nil => rfl
  | cons field rest ih =>
    obtain ⟨k, v⟩ := field
    rw [List.map_cons, List.mem_cons, not_or] at absent
    simp [onlyField?, ih absent.2, Ne.symm absent.1]

/-- A field of an object with distinct names is the only one of its name. -/
theorem onlyField?_of_mem {name : String} {value : Json} {fields : List (String × Json)}
    (distinct : (fields.map Prod.fst).Nodup) (member : (name, value) ∈ fields)
    (small : sizeOf value < sizeOf fields) :
    onlyField? name fields = some (some ⟨value, small⟩) := by
  induction fields with
  | nil => cases member
  | cons field rest ih =>
    obtain ⟨k, v⟩ := field
    rw [List.map_cons, List.nodup_cons] at distinct
    rcases List.mem_cons.1 member with here | later
    · cases here
      simp [onlyField?, onlyField?_of_not_mem distinct.1]
    · have other : k ≠ name := by
        rintro rfl
        exact distinct.1 (List.mem_map.2 ⟨_, later, rfl⟩)
      have inner := List.sizeOf_lt_of_mem later
      simp only [Prod.mk.sizeOf_spec] at inner
      simp [onlyField?, ih distinct.2 later (by omega), other]

theorem namedFields?_eq {fields chosen : List (String × Json)}
    (distinct : (fields.map Prod.fst).Nodup) (among : ∀ field ∈ chosen, field ∈ fields)
    (small : ∀ field ∈ chosen, sizeOf field.2 < sizeOf fields) :
    namedFields? fields (chosen.map Prod.fst) =
      some (chosen.pmap (fun field less => some ⟨field.2, less⟩) small) := by
  induction chosen with
  | nil => rfl
  | cons field rest ih =>
    have found := onlyField?_of_mem distinct (among field List.mem_cons_self)
      (small field List.mem_cons_self)
    have later := ih (fun f member => among f (List.mem_cons_of_mem _ member))
      fun f member => small f (List.mem_cons_of_mem _ member)
    rw [List.map_cons, namedFields?, found, later]
    rfl

theorem sizeOf_snd_lt {fields : List (String × Json)} :
    ∀ field ∈ fields, sizeOf field.2 < sizeOf fields := by
  rintro ⟨name, value⟩ member
  have inner := List.sizeOf_lt_of_mem member
  simp only [Prod.mk.sizeOf_spec] at inner ⊢
  omega

theorem sizeOf_field_lt {fields : List (String × Json)} :
    ∀ field ∈ fields, sizeOf field.2 < sizeOf (Json.object fields) := by
  intro field member
  have inner := sizeOf_snd_lt field member
  simp only [Json.object.sizeOf_spec]
  omega

/-- An object with distinct names is the record of its fields. -/
theorem record?_object (fields : List (String × Json)) (distinct : (fields.map Prod.fst).Nodup) :
    record? (fields.map Prod.fst) (.object fields) =
      some (fields.pmap (fun field less => some ⟨field.2, less⟩) sizeOf_field_lt) := by
  rw [record?, namedFields?_eq distinct (fun _ member => member) sizeOf_snd_lt]
  simp only [Option.map_some, List.map_pmap]
  exact congrArg some (List.pmap_congr_left fields fun _ _ _ _ => rfl)

theorem record?_pair {a b : String} (x y : Json) (distinct : [a, b].Nodup) :
    record? [a, b] (.object [(a, x), (b, y)]) =
      some [some ⟨x, sizeOf_field_lt (a, x) (by simp)⟩, some ⟨y, sizeOf_field_lt (b, y) (by simp)⟩] :=
  record?_object [(a, x), (b, y)] distinct

theorem record?_triple {a b c : String} (x y z : Json) (distinct : [a, b, c].Nodup) :
    record? [a, b, c] (.object [(a, x), (b, y), (c, z)]) =
      some [some ⟨x, sizeOf_field_lt (a, x) (by simp)⟩, some ⟨y, sizeOf_field_lt (b, y) (by simp)⟩,
        some ⟨z, sizeOf_field_lt (c, z) (by simp)⟩] :=
  record?_object [(a, x), (b, y), (c, z)] distinct

/-! ### Small values -/

@[simp]
theorem bare?_string (inNode : Bool) (name : String) : bare? inNode (.string name) = some name := rfl

theorem nullable?_optionalString (value : Option String) :
    nullable? string? (optionalString value) = some value := by
  cases value <;> rfl

theorem strings?_strings (items : List String) : strings? (strings items) = some items := by
  rw [strings?, strings, items?, Option.bind_some]
  induction items with
  | nil => rfl
  | cons item rest ih => simp [string?, ih]

end Json

open Json (record?_object record?_pair record?_triple)

namespace Span

theorem word?_nat (word : UInt32) : word? (.nat word.toNat) = some word := by
  have bound := word.toNat_lt_size
  simp [word?, Json.nat, Json.int?, bound]

theorem ofJson?_toJson (span : Span) : ofJson? span.toJson = some span := by
  have record := record?_object [("start", .nat span.start.toNat), ("end", .nat span.stop.toNat),
    ("line", .nat span.line.toNat), ("column", .nat span.column.toNat)] (by simp)
  simp only [List.map, List.pmap] at record
  rw [ofJson?, toJson, record]
  simp [Json.required?, word?_nat]

end Span

theorem Operator.ofJson?_toJson (inNode : Bool) (op : Operator) :
    ofJson? inNode op.toJson = some op := ofName?_name op

namespace Literal

theorem int64?_int (value : Int64) : int64? (.int value.toInt) = some value := by
  have range := And.intro (Int64.minValue_le_toInt value) (Int64.toInt_le value)
  simp only [int64?, Json.int, Json.int?]
  rw [if_pos range, Int64.ofInt_toInt]

theorem bits?_nat (x : Binary64) : bits? (.nat x.bits.toNat) = some x := by
  have bound := x.bits.toNat_lt_size
  simp [bits?, Json.nat, Json.int?, bound]

/-- A literal is read back when the doubles are. -/
theorem ofJsonWith?_toJsonWith {float : Binary64 → Json} {float? : Json → Option Binary64}
    (same : ∀ x, float? (float x) = some x) (inNode : Bool) (value : Literal) :
    ofJsonWith? float? inNode (toJsonWith float value) = some value := by
  cases value with
  | null => rfl
  | bool value => rfl
  | int value => simp [toJsonWith, ofJsonWith?, Json.variant?, int64?_int]
  | float value => simp [toJsonWith, ofJsonWith?, Json.variant?, same]
  | str value => rfl

theorem ofJson?_toJson (inNode : Bool) (value : Literal) :
    ofJson? inNode value.toJson = some value :=
  ofJsonWith?_toJsonWith (fun _ => rfl) inNode value

theorem ofKeyJson?_toKeyJson (inNode : Bool) (value : Literal) :
    ofKeyJson? inNode value.toKeyJson = some value :=
  ofJsonWith?_toJsonWith bits?_nat inNode value

end Literal

theorem Access.ofJson?_toJson (inNode : Bool) (access : Access) :
    ofJson? inNode access.toJson = some access := by
  cases access with
  | dynamic => rfl
  | direct name | cached name => rfl

theorem Resolution.ofJson?_toJson (inNode : Bool) (r : Resolution) :
    ofJson? inNode r.toJson = some r := by
  rw [ofJson?, toJson, record?_pair _ _ (by decide)]
  simp [Json.required?, Json.bool?, Access.ofJson?_toJson]

/-! ### Computations and scopes -/

namespace Computation

mutual

theorem ofJson?_toJson (inNode : Bool) (c : Computation) : ofJson? inNode c.toJson = some c := by
  cases c with
  | placeholder name | identifier name =>
    rw [toJson]
    unfold ofJson?
    rfl
  | literal value =>
    rw [toJson]
    unfold ofJson?
    simp [Json.variant?, Literal.ofKeyJson?_toKeyJson]
  | binary op left right =>
    rw [toJson]
    unfold ofJson?
    simp only [Json.variant?]
    rw [record?_triple _ _ _ (by decide)]
    simp [Json.required?, Operator.ofJson?_toJson, ofJson?_toJson inNode left,
      ofJson?_toJson inNode right]
  | filter name operand =>
    rw [toJson]
    unfold ofJson?
    simp only [Json.variant?]
    rw [record?_pair _ _ (by decide)]
    simp [Json.optional?, Json.nullable?_optionalString, ofJson?_toJson inNode operand]
  | call callee arguments =>
    rw [toJson]
    unfold ofJson?
    simp only [Json.variant?]
    rw [record?_pair _ _ (by decide)]
    simp [ofArray?, ofJson?_toJson inNode callee, ofJsonAll?_toJsonAll inNode arguments]
  | list items =>
    rw [toJson]
    unfold ofJson?
    simp [Json.variant?, ofArray?, ofJsonAll?_toJsonAll inNode items]
termination_by structural c

theorem ofJsonAll?_toJsonAll (inNode : Bool) (cs : List Computation) :
    ofJsonAll? inNode (toJsonAll cs) = some cs := by
  cases cs with
  | nil => simp [toJsonAll, ofJsonAll?]
  | cons c rest =>
    simp [toJsonAll, ofJsonAll?, ofJson?_toJson inNode c, ofJsonAll?_toJsonAll inNode rest]
termination_by structural cs

end

end Computation

namespace Scope

theorem entriesOfJson?_toJson (inNode : Bool) (entries : List (Computation × String)) :
    entriesOfJson? inNode (.array (entries.map entryToJson)) = some entries := by
  rw [entriesOfJson?, Json.items?, Option.bind_some]
  induction entries with
  | nil => rfl
  | cons entry rest ih =>
    simp [entryToJson, entryOfJson?, Computation.ofJson?_toJson, ih]

/-- The names and the aliases of a scope are distinct, so each is at its place again. -/
theorem ofJson?_toJson (inNode : Bool) (scope : Scope) :
    ofJson? inNode scope.toJson = some scope := by
  rw [ofJson?, toJson, record?_triple _ _ _ (by decide)]
  simp [Json.optional?, Json.strings?_strings, entriesOfJson?_toJson]

end Scope

/-! ### What a written tree consists of -/

namespace Json

mutual

/-- Whether a value can be read as a whole, with numbers of the given kind only. -/
def consistsOf (kind : Number → Bool) : Json → Bool
  | .null | .bool _ | .string _ => true
  | .number n => kind n
  | .array items => consistOf kind items
  | .object fields => fieldsConsistOf kind fields
  | .unreadable => false
termination_by structural j => j

/-- Whether all of some values consist of such numbers. -/
def consistOf (kind : Number → Bool) : List Json → Bool
  | [] => true
  | item :: rest => item.consistsOf kind && consistOf kind rest
termination_by structural items => items

/-- Whether all of some fields consist of such numbers. -/
def fieldsConsistOf (kind : Number → Bool) : List (String × Json) → Bool
  | [] => true
  | (_, value) :: rest => value.consistsOf kind && fieldsConsistOf kind rest
termination_by structural fields => fields

end

mutual

theorem isReadable_of_consistsOf {kind : Number → Bool} (j : Json) (h : j.consistsOf kind) :
    j.isReadable := by
  cases j with
  | null | bool | number | string => rfl
  | array items => exact areReadable_of_consistOf items h
  | object fields => exact fieldsReadable_of_fieldsConsistOf fields h
  | unreadable => simp [consistsOf] at h
termination_by structural j

theorem areReadable_of_consistOf {kind : Number → Bool} (items : List Json)
    (h : consistOf kind items) : areReadable items := by
  cases items with
  | nil => rfl
  | cons item rest =>
    rw [consistOf, Bool.and_eq_true] at h
    rw [areReadable, isReadable_of_consistsOf item h.1, areReadable_of_consistOf rest h.2]
    rfl
termination_by structural items

theorem fieldsReadable_of_fieldsConsistOf {kind : Number → Bool} (fields : List (String × Json))
    (h : fieldsConsistOf kind fields) : fieldsReadable fields := by
  cases fields with
  | nil => rfl
  | cons field rest =>
    obtain ⟨name, value⟩ := field
    rw [fieldsConsistOf, Bool.and_eq_true] at h
    rw [fieldsReadable, isReadable_of_consistsOf value h.1,
      fieldsReadable_of_fieldsConsistOf rest h.2]
    rfl
termination_by structural fields

end

/-- Whether a number is sure to be carried as it is: an integer of 64 bits, signed or unsigned, or a
double that is finite. -/
def Number.isCarried : Number → Bool
  | .int value => Int64.minValue.toInt ≤ value ∧ value < UInt64.size
  | .float value => value.isFinite

/-- Whether a value is sure to be carried as it is. -/
def isCarried (j : Json) : Bool := j.consistsOf Number.isCarried

end Json

open Json (consistsOf consistOf fieldsConsistOf)

section Contents

variable {kind : Json.Number → Bool}

theorem Json.consistsOf_strings (items : List String) : (strings items).consistsOf kind := by
  rw [strings, consistsOf]
  induction items with
  | nil => rfl
  | cons item rest ih => rwa [List.map_cons, consistOf, consistsOf, Bool.true_and]

theorem Json.consistsOf_optionalString (value : Option String) :
    (optionalString value).consistsOf kind := by
  cases value <;> rfl

/-- The numbers that are carried without being doubles. -/
def Json.Integral (kind : Number → Bool) : Prop := ∀ n, Number.isCarried (.int n) → kind (.int n)

theorem Json.Integral.nat (h : Integral kind) {n : Nat} (bound : n < UInt64.size) :
    (Json.nat n).consistsOf kind := by
  have low : Int64.minValue.toInt ≤ n :=
    Int.le_trans (by decide : Int64.minValue.toInt ≤ 0) (Int.natCast_nonneg n)
  have high : (n : Int) < UInt64.size := Int.ofNat_lt.2 bound
  have carried : Number.isCarried (.int n) := by
    rw [Number.isCarried, decide_eq_true_eq]
    exact ⟨low, high⟩
  exact h n carried

theorem Span.consistsOf_toJson (h : Json.Integral kind) (span : Span) :
    span.toJson.consistsOf kind := by
  have word (w : UInt32) : (Json.nat w.toNat).consistsOf kind :=
    h.nat (Nat.lt_trans w.toNat_lt_size (by decide))
  simp [toJson, consistsOf, fieldsConsistOf, word]

/-- The integers of a literal are of 64 bits; its double is as it is written. -/
theorem Literal.consistsOf_toJsonWith (h : Json.Integral kind) {float : Binary64 → Json}
    (value : Literal) (floats : ∀ x, value = .float x → (float x).consistsOf kind) :
    (toJsonWith float value).consistsOf kind := by
  cases value with
  | null | bool | str => rfl
  | int value =>
    have small : value.toInt < UInt64.size := Int.lt_of_le_of_lt value.toInt_le (by decide)
    have inner : (Json.int value.toInt).consistsOf kind :=
      h _ (decide_eq_true ⟨value.minValue_le_toInt, small⟩)
    simp [toJsonWith, consistsOf, fieldsConsistOf, inner]
  | float value => simp [toJsonWith, consistsOf, fieldsConsistOf, floats value rfl]

theorem Resolution.consistsOf_toJson (r : Resolution) : r.toJson.consistsOf kind := by
  obtain ⟨eligible, access⟩ := r
  cases access <;> rfl

mutual

theorem Computation.consistsOf_toJson (h : Json.Integral kind) (c : Computation) :
    c.toJson.consistsOf kind := by
  cases c with
  | placeholder | identifier => rfl
  | literal value =>
    have inner : value.toKeyJson.consistsOf kind :=
      value.consistsOf_toJsonWith h fun x _ => h.nat x.bits.toNat_lt_size
    simp [toJson, consistsOf, fieldsConsistOf, inner]
  | binary op left right =>
    simp [toJson, consistsOf, fieldsConsistOf, Operator.toJson,
      Computation.consistsOf_toJson h left, Computation.consistsOf_toJson h right]
  | filter name operand =>
    simp [toJson, consistsOf, fieldsConsistOf, Json.consistsOf_optionalString,
      Computation.consistsOf_toJson h operand]
  | call callee arguments =>
    simp [toJson, consistsOf, fieldsConsistOf, Computation.consistsOf_toJson h callee,
      Computation.consistOf_toJsonAll h arguments]
  | list items =>
    simp [toJson, consistsOf, fieldsConsistOf, Computation.consistOf_toJsonAll h items]
termination_by structural c

theorem Computation.consistOf_toJsonAll (h : Json.Integral kind) (cs : List Computation) :
    consistOf kind (toJsonAll cs) := by
  cases cs with
  | nil => rfl
  | cons c rest =>
    simp [toJsonAll, consistOf, Computation.consistsOf_toJson h c,
      Computation.consistOf_toJsonAll h rest]
termination_by structural cs

end

theorem Scope.consistsOf_toJson (h : Json.Integral kind) (scope : Scope) :
    scope.toJson.consistsOf kind := by
  have entries (es : List (Computation × String)) : consistOf kind (es.map entryToJson) := by
    induction es with
    | nil => rfl
    | cons entry rest ih =>
      simp [entryToJson, consistOf, consistsOf, Computation.consistsOf_toJson h, ih]
  simp [toJson, consistsOf, fieldsConsistOf, Json.consistsOf_strings, entries]

/-- The doubles among the nodes are written as numbers of the given kind. -/
def Node.FloatsOf (kind : Json.Number → Bool) (nodes : List Node) : Prop :=
  ∀ span x, .literal span (.float x) ∈ nodes → kind (.float x)

theorem Node.FloatsOf.subset {some all : List Node} (h : Node.FloatsOf kind all)
    (among : some ⊆ all) : Node.FloatsOf kind some :=
  fun span x member => h span x (among member)

theorem Node.consistsOf_taggedJson (h : Json.Integral kind) (name : String) {data : Json}
    (span : Span) (inner : data.consistsOf kind) : (taggedJson name data span).consistsOf kind := by
  simp [taggedJson, consistsOf, fieldsConsistOf, inner, Span.consistsOf_toJson h]

theorem Block.consistsOf_partsJson (h : Json.Integral kind) {body : List Json} (scope : Scope)
    (inner : consistOf kind body) : (partsJson body scope).consistsOf kind := by
  simp [partsJson, consistsOf, fieldsConsistOf, inner, Scope.consistsOf_toJson h]

mutual

/-- A tree is written with integers of 64 bits and with its own doubles. -/
theorem Node.consistsOf_toJson (h : Json.Integral kind) (n : Node)
    (floats : Node.FloatsOf kind n.preorder) : n.toJson.consistsOf kind := by
  cases n with
  | template span name globals body =>
    have inner := Node.consistOf_toJsonAll h body (floats.subset (List.subset_cons_self _ _))
    apply consistsOf_taggedJson h
    simp [consistsOf, fieldsConsistOf, Json.consistsOf_strings, inner]
  | function span name block =>
    obtain ⟨body, scope⟩ := block
    have inner := Node.consistOf_toJsonAll h body (floats.subset (List.subset_cons_self _ _))
    apply consistsOf_taggedJson h
    simp [consistsOf, fieldsConsistOf, Block.consistsOf_partsJson h scope inner]
  | conditional span condition thenBranch elseBranch =>
    obtain ⟨thenBody, thenScope⟩ := thenBranch
    cases elseBranch with
    | none =>
      have below := floats.subset (List.subset_cons_self _ _)
      have test := Node.consistsOf_toJson h condition
        (below.subset (List.subset_append_left _ _))
      have thenSide := Node.consistOf_toJsonAll h thenBody
        (below.subset (List.subset_append_right _ _))
      apply consistsOf_taggedJson h
      simp [consistsOf, fieldsConsistOf, test, Block.consistsOf_partsJson h thenScope thenSide]
    | some block =>
      obtain ⟨elseBody, elseScope⟩ := block
      have below := floats.subset (List.subset_cons_self _ _)
      have test := Node.consistsOf_toJson h condition
        (below.subset fun _ member => List.mem_append_left _ (List.mem_append_left _ member))
      have thenSide := Node.consistOf_toJsonAll h thenBody
        (below.subset fun _ member => List.mem_append_left _ (List.mem_append_right _ member))
      have elseSide := Node.consistOf_toJsonAll h elseBody
        (below.subset (List.subset_append_right _ _))
      apply consistsOf_taggedJson h
      simp [consistsOf, fieldsConsistOf, test, Block.consistsOf_partsJson h thenScope thenSide,
        Block.consistsOf_partsJson h elseScope elseSide]
  | assign span target value =>
    have inner := Node.consistsOf_toJson h value (floats.subset (List.subset_cons_self _ _))
    apply consistsOf_taggedJson h
    simp [consistsOf, fieldsConsistOf, inner]
  | identifier span name => exact consistsOf_taggedJson h _ span rfl
  | placeholder span name resolution =>
    apply consistsOf_taggedJson h
    cases resolution with
    | none => rfl
    | some r => simp [consistsOf, fieldsConsistOf, Resolution.consistsOf_toJson]
  | literal span value =>
    apply consistsOf_taggedJson h
    apply value.consistsOf_toJsonWith h
    rintro x rfl
    exact floats span x List.mem_cons_self
  | binary span op left right =>
    have below := floats.subset (List.subset_cons_self _ _)
    have first := Node.consistsOf_toJson h left (below.subset (List.subset_append_left _ _))
    have second := Node.consistsOf_toJson h right (below.subset (List.subset_append_right _ _))
    apply consistsOf_taggedJson h
    simp [consistsOf, fieldsConsistOf, Operator.toJson, first, second]
  | filter span operand name cachedAs =>
    have inner := Node.consistsOf_toJson h operand (floats.subset (List.subset_cons_self _ _))
    apply consistsOf_taggedJson h
    simp [consistsOf, fieldsConsistOf, Json.consistsOf_optionalString, inner]
  | call span callee arguments =>
    have below := floats.subset (List.subset_cons_self _ _)
    have first := Node.consistsOf_toJson h callee (below.subset (List.subset_append_left _ _))
    have second := Node.consistOf_toJsonAll h arguments
      (below.subset (List.subset_append_right _ _))
    apply consistsOf_taggedJson h
    simp [consistsOf, fieldsConsistOf, first, second]
  | list span items =>
    have inner := Node.consistOf_toJsonAll h items (floats.subset (List.subset_cons_self _ _))
    apply consistsOf_taggedJson h
    simp [consistsOf, inner]
  | write span operand =>
    exact consistsOf_taggedJson h _ span
      (Node.consistsOf_toJson h operand (floats.subset (List.subset_cons_self _ _)))
termination_by structural n

theorem Node.consistOf_toJsonAll (h : Json.Integral kind) (ns : List Node)
    (floats : Node.FloatsOf kind (preorderOf ns)) : consistOf kind (toJsonAll ns) := by
  cases ns with
  | nil => rfl
  | cons n rest =>
    rw [toJsonAll, consistOf,
      Node.consistsOf_toJson h n (floats.subset (List.subset_append_left _ _)),
      Node.consistOf_toJsonAll h rest (floats.subset (List.subset_append_right _ _))]
    rfl
termination_by structural ns

end

end Contents

/-! ### Trees -/

namespace Node

theorem isReadable_toJson (n : Node) : n.toJson.isReadable :=
  Json.isReadable_of_consistsOf n.toJson <|
    @consistsOf_toJson (fun _ => true) (fun _ _ => rfl) n fun _ _ _ => rfl

theorem ofJson?_taggedJson {kind : String} {data : Json} {span : Span}
    (readable : (taggedJson kind data span).isReadable) :
    ofJson? (taggedJson kind data span) = ofData? kind data span := by
  have inner : data.isReadable := by
    simp only [taggedJson, Json.isReadable, Json.fieldsReadable, Bool.and_eq_true] at readable
    exact readable.2.1
  unfold taggedJson ofJson?
  rw [record?_triple _ _ _ (by decide)]
  simp [Json.fieldsReadable, Json.isReadable, inner, Json.optional?, Span.ofJson?_toJson]

end Node

/-- A block is read back when its statements are. -/
theorem Block.ofJson?_partsJson (inNode : Bool) {body : List Node} (scope : Scope)
    (same : Node.ofJsonAll? (Node.toJsonAll body) = some body) :
    ofJson? inNode (partsJson (Node.toJsonAll body) scope) = some ⟨body, scope⟩ := by
  unfold ofJson? partsJson
  rw [record?_pair _ _ (by decide)]
  simp [Node.ofArray?, same, Json.optional?, Scope.ofJson?_toJson]

namespace Node

mutual

theorem ofJson?_toJson (n : Node) : ofJson? n.toJson = some n := by
  have readable := n.isReadable_toJson
  cases n with
  | template span name globals body =>
    rw [toJson] at readable ⊢
    rw [ofJson?_taggedJson readable, ofData?, record?_triple _ _ _ (by decide)]
    simp [Json.required?, Json.string?, Json.optional?, Json.strings?_strings, ofArray?,
      ofJsonAll?_toJsonAll body]
  | function span name block =>
    obtain ⟨body, scope⟩ := block
    have inner := Block.ofJson?_partsJson true scope (ofJsonAll?_toJsonAll body)
    rw [toJson] at readable ⊢
    rw [ofJson?_taggedJson readable, ofData?, record?_pair _ _ (by decide)]
    simp [Json.required?, Json.string?, inner]
  | conditional span condition thenBranch elseBranch =>
    obtain ⟨thenBody, thenScope⟩ := thenBranch
    have test := ofJson?_toJson condition
    have thenSide := Block.ofJson?_partsJson true thenScope (ofJsonAll?_toJsonAll thenBody)
    cases elseBranch with
    | none =>
      rw [toJson] at readable ⊢
      rw [ofJson?_taggedJson readable, ofData?, record?_triple _ _ _ (by decide)]
      simp [test, thenSide]
    | some block =>
      obtain ⟨elseBody, elseScope⟩ := block
      have elseSide := Block.ofJson?_partsJson true elseScope (ofJsonAll?_toJsonAll elseBody)
      rw [toJson] at readable ⊢
      rw [ofJson?_taggedJson readable, ofData?, record?_triple _ _ _ (by decide)]
      simp only [Option.bind_eq_bind, test, thenSide, Option.bind_some]
      change ((Block.ofJson? true _).map some).bind _ = _
      rw [elseSide]
      rfl
  | assign span target value =>
    rw [toJson] at readable ⊢
    rw [ofJson?_taggedJson readable, ofData?, record?_pair _ _ (by decide)]
    simp [Json.required?, Json.string?, ofJson?_toJson value]
  | identifier span name =>
    rw [toJson] at readable ⊢
    rw [ofJson?_taggedJson readable, ofData?]
    rfl
  | placeholder span name resolution =>
    rw [toJson] at readable ⊢
    rw [ofJson?_taggedJson readable, ofData?, record?_pair _ _ (by decide)]
    cases resolution with
    | none => rfl
    | some r =>
      have noted : Json.nullable? (Resolution.ofJson? true) r.toJson = some (some r) := by
        change (Resolution.ofJson? true r.toJson).map some = some (some r)
        rw [Resolution.ofJson?_toJson]
        rfl
      simp [Json.required?, Json.string?, Json.optional?, noted]
  | literal span value =>
    rw [toJson] at readable ⊢
    rw [ofJson?_taggedJson readable, ofData?, Literal.ofJson?_toJson]
    rfl
  | binary span op left right =>
    rw [toJson] at readable ⊢
    rw [ofJson?_taggedJson readable, ofData?, record?_triple _ _ _ (by decide)]
    simp [Json.required?, Operator.ofJson?_toJson, ofJson?_toJson left, ofJson?_toJson right]
  | filter span operand name cachedAs =>
    rw [toJson] at readable ⊢
    rw [ofJson?_taggedJson readable, ofData?, record?_triple _ _ _ (by decide)]
    simp [Json.optional?, Json.nullable?_optionalString, ofJson?_toJson operand]
  | call span callee arguments =>
    rw [toJson] at readable ⊢
    rw [ofJson?_taggedJson readable, ofData?, record?_pair _ _ (by decide)]
    simp [ofArray?, ofJson?_toJson callee, ofJsonAll?_toJsonAll arguments]
  | list span items =>
    rw [toJson] at readable ⊢
    rw [ofJson?_taggedJson readable, ofData?, ofArray?, ofJsonAll?_toJsonAll items]
    rfl
  | write span operand =>
    rw [toJson] at readable ⊢
    rw [ofJson?_taggedJson readable, ofData?, ofJson?_toJson operand]
    rfl
termination_by structural n

theorem ofJsonAll?_toJsonAll (ns : List Node) : ofJsonAll? (toJsonAll ns) = some ns := by
  cases ns with
  | nil => simp [toJsonAll, ofJsonAll?]
  | cons n rest =>
    simp [toJsonAll, ofJsonAll?, ofJson?_toJson n, ofJsonAll?_toJsonAll rest]
termination_by structural ns

end

/-- Whether a node is a double that is not finite. -/
def isUnlimited : Node → Bool
  | .literal _ (.float x) => !x.isFinite
  | _ => false

/-- Whether all doubles of a tree are finite. -/
def isFinite (n : Node) : Bool := !n.preorder.any isUnlimited

theorem floatsOf_of_isFinite {n : Node} (finite : n.isFinite) :
    FloatsOf Json.Number.isCarried n.preorder := by
  intro span x member
  rw [isFinite, Bool.not_eq_true', List.any_eq_false] at finite
  simpa [isUnlimited, Json.Number.isCarried] using finite _ member

end Node

/-- A text format that carries strings, integers of 64 bits and finite doubles unchanged carries
trees and computations unchanged: a tree whose doubles are finite and a computation with any literals
are read as they were written. -/
theorem written_read_back {Text : Type} (write : Json → Text) (read : Text → Option Json)
    (carries : ∀ j : Json, j.isCarried → read (write j) = some j) :
    (∀ n : Node, n.isFinite → (read (write n.toJson)).bind Node.ofJson? = some n) ∧
      ∀ c : Computation, (read (write c.toJson)).bind (Computation.ofJson? false) = some c := by
  have integral : Json.Integral Json.Number.isCarried := fun _ carried => carried
  constructor
  · intro n finite
    rw [carries _ (n.consistsOf_toJson integral (Node.floatsOf_of_isFinite finite)),
      Option.bind_some, Node.ofJson?_toJson]
  · intro c
    rw [carries _ (c.consistsOf_toJson integral), Option.bind_some, Computation.ofJson?_toJson]

/-- A template with notes, with an alias for a literal that is not a number, and with a double and an
integer at the ends of their ranges. -/
def assortment : Node :=
  .template ⟨0, 90, 1, 1⟩ "page" (.ofList ["user", "date"])
    [.function ⟨5, 80, 2, 1⟩ "greet"
      ⟨[.conditional ⟨9, 70, 3, 1⟩
          (.binary .generated .and (.identifier .generated "ready")
            (.placeholder .generated "user" (some ⟨false, .dynamic⟩)))
          (.plain [.write .generated
            (.filter .generated (.placeholder .generated "date" (some ⟨true, .cached "_rph_date"⟩))
              (some "upper") (some "_fph0"))])
          (some (.plain [.assign .generated "n" (.literal .generated (.int Int64.minValue))])),
        .call .generated (.identifier .generated "max")
          [.list .generated [.literal .generated (.float ⟨0x7fefffffffffffff⟩),
            .literal .generated (.float ⟨0x8000000000000000⟩)]]],
        ⟨.ofList ["who", "_rph_date"],
          .ofList [(.placeholder "date", "_rph_date"),
            (.call (.identifier "max") [.literal (.float ⟨0xffffffffffffffff⟩)], "_fph0")],
          .ofList ["_rph_date", "_fph0"]⟩⟩]

theorem assortment_read_back :
    assortment.isFinite = true ∧
      (Json.Postfix.read (Json.Postfix.write assortment.toJson)).bind Node.ofJson? =
        some assortment ∧
      (Json.Postfix.read (Json.Postfix.write (Computation.toJson
        (.literal (.float ⟨0xffffffffffffffff⟩))))).bind (Computation.ofJson? false) =
        some (.literal (.float ⟨0xffffffffffffffff⟩)) := by
  have both := written_read_back Json.Postfix.write Json.Postfix.read fun j carried =>
    Json.Postfix.read_write j (Json.isReadable_of_consistsOf j carried)
  exact ⟨by decide, both.1 assortment (by decide), both.2 _⟩

end Stencil
