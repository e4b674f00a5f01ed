import Workflow.Proofs.Value.Tokens
import Workflow.Value.Reader

/-!
# Values read back from their canonical text

The text of a value has the tokens of the value, and the reader builds the
value from its tokens as long as the containers nest no deeper than it allows.
-/

namespace Workflow

namespace Members

theorem insert_of_notMem {members : Members} {key : String} {value : Value}
    (absent : key ∉ members.map Prod.fst) :
    members.insert key value = members ++ [(key, value)] := by
  induction members with
  | nil => rfl
  | cons member rest induction =>
      obtain ⟨other, old⟩ := member
      simp only [List.map_cons, List.mem_cons, not_or] at absent
      rw [insert, if_neg (Ne.symm absent.1), induction absent.2,
        List.cons_append]

/-- Members under distinct keys stay as they are given. -/
theorem ofPairs_of_nodup
    {pairs : Members} (distinct : (pairs.map Prod.fst).Nodup) :
    ofPairs pairs = pairs := by
  have inserted : ∀ (done : Members) {rest : Members},
      ((done ++ rest).map Prod.fst).Nodup →
      rest.foldl (fun members pair => insert members pair.1 pair.2) done =
        done ++ rest := by
    intro done rest distinct
    induction rest generalizing done with
    | nil => simp
    | cons pair rest induction =>
        have absent : pair.1 ∉ done.map Prod.fst := by
          rw [List.map_append, List.nodup_append] at distinct
          intro member
          exact distinct.2.2 pair.1 member pair.1 (by simp) rfl
        rw [List.foldl_cons, insert_of_notMem absent, induction]
        · simp
        · simpa using distinct
  exact inserted [] distinct

end Members

namespace Value

mutual

/-- A value whose numbers read back and in whose objects no key occurs
twice. -/
def Faithful : Value → Prop
  | .number value => value.Faithful
  | .array items => FaithfulList items
  | .object members => (members.map Prod.fst).Nodup ∧ FaithfulMembers members
  | _ => True

def FaithfulList : List Value → Prop
  | [] => True
  | item :: rest => item.Faithful ∧ FaithfulList rest

def FaithfulMembers : List (String × Value) → Prop
  | [] => True
  | (_, value) :: rest => value.Faithful ∧ FaithfulMembers rest

end

mutual

/-- Faithfulness can be decided. -/
def decideFaithful : (value : Value) → Decidable value.Faithful
  | .null => inferInstanceAs (Decidable True)
  | .bool _ => inferInstanceAs (Decidable True)
  | .number value => inferInstanceAs (Decidable value.Faithful)
  | .string _ => inferInstanceAs (Decidable True)
  | .array items => decideFaithfulList items
  | .object members =>
      have := decideFaithfulMembers members
      inferInstanceAs
        (Decidable ((members.map Prod.fst).Nodup ∧ FaithfulMembers members))

def decideFaithfulList : (items : List Value) → Decidable (FaithfulList items)
  | [] => inferInstanceAs (Decidable True)
  | item :: rest =>
      have := decideFaithful item
      have := decideFaithfulList rest
      inferInstanceAs (Decidable (item.Faithful ∧ FaithfulList rest))

def decideFaithfulMembers :
    (members : List (String × Value)) → Decidable (FaithfulMembers members)
  | [] => inferInstanceAs (Decidable True)
  | (_, value) :: rest =>
      have := decideFaithful value
      have := decideFaithfulMembers rest
      inferInstanceAs (Decidable (value.Faithful ∧ FaithfulMembers rest))

end

instance : DecidablePred Faithful := decideFaithful

theorem faithfulList_iff {items : List Value} :
    FaithfulList items ↔ ∀ item ∈ items, item.Faithful := by
  induction items with
  | nil => simp [FaithfulList]
  | cons item rest induction => simp [FaithfulList, induction]

theorem faithfulMembers_iff {members : Members} :
    FaithfulMembers members ↔ ∀ member ∈ members, member.2.Faithful := by
  induction members with
  | nil => simp [FaithfulMembers]
  | cons member rest induction => simp [FaithfulMembers, induction]

theorem tokensList_cons_cons (item next : Value) (items : List Value) :
    tokensList (item :: next :: items) =
      tokens item ++ .comma :: tokensList (next :: items) := by
  simp [tokensList]

theorem tokensMembers_cons_cons
    (key : String) (value : Value) (next : String × Value)
    (members : Members) :
    tokensMembers ((key, value) :: next :: members) =
      .text key :: .colon ::
        (tokens value ++ .comma :: tokensMembers (next :: members)) := by
  simp [tokensMembers]

open Token (lexFrom? lexFrom?_chars Apart)

theorem lexFrom?_indentation
    (found : List Token) (level : Nat) (rest : List Char) :
    lexFrom? found (indentation level ++ rest) = lexFrom? found rest := by
  have blanks : ∀ count,
      lexFrom? found (List.replicate count ' ' ++ rest) =
        lexFrom? found rest := by
    intro count
    induction count with
    | zero => rfl
    | succ count induction =>
        rw [List.replicate_succ, List.cons_append, lexFrom?, induction]
  rw [indentation, List.cons_append, lexFrom?, blanks]

theorem apart_cons
    {c : Char} {rest : List Char} (other : Token.isNumberChar c = false) :
    Apart (c :: rest) := by
  rintro _ ⟨⟩
  exact other

theorem apart_indentation {level : Nat} {rest : List Char} :
    Apart (indentation level ++ rest) :=
  apart_cons rfl

mutual

theorem lexFrom?_prettyChars
    (level : Nat) {value : Value} (faithful : value.Faithful)
    {rest : List Char} (apart : Apart rest) (found : List Token) :
    lexFrom? found (value.prettyChars level ++ rest) =
      lexFrom? (value.tokens.reverse ++ found) rest := by
  match value with
  | .null =>
      exact lexFrom?_chars (show Token.null.Faithful from trivial) apart found
  | .bool value =>
      exact lexFrom?_chars (show (Token.bool value).Faithful from trivial)
        apart found
  | .number value =>
      exact lexFrom?_chars (show (Token.number value).Faithful from faithful)
        apart found
  | .string text =>
      exact lexFrom?_chars (show (Token.text text).Faithful from trivial) apart
        found
  | .array [] => simp [prettyChars, tokens, tokensList, lexFrom?]
  | .array (item :: items) =>
      rw [prettyChars, List.cons_append, lexFrom?, List.append_assoc,
        List.append_assoc, lexFrom?_prettyList _ faithful apart_indentation,
        lexFrom?_indentation, List.singleton_append, lexFrom?]
      simp [tokens]
  | .object [] => simp [prettyChars, tokens, tokensMembers, lexFrom?]
  | .object (member :: members) =>
      rw [prettyChars, List.cons_append, lexFrom?, List.append_assoc,
        List.append_assoc,
        lexFrom?_prettyMembers _ faithful.2 apart_indentation,
        lexFrom?_indentation, List.singleton_append, lexFrom?]
      simp [tokens]

theorem lexFrom?_prettyList
    (level : Nat) {items : List Value} (faithful : FaithfulList items)
    {rest : List Char} (apart : Apart rest) (found : List Token) :
    lexFrom? found (prettyList level items ++ rest) =
      lexFrom? ((tokensList items).reverse ++ found) rest := by
  match items with
  | [] => simp [prettyList, tokensList]
  | [item] =>
      rw [prettyList, List.append_assoc, lexFrom?_indentation,
        lexFrom?_prettyChars level faithful.1 apart, tokensList]
  | item :: next :: items =>
      have comma : prettyList level (item :: next :: items) ++ rest =
          indentation level ++
            (prettyChars level item ++ ',' ::
              (prettyList level (next :: items) ++ rest)) := by
        simp [prettyList]
      rw [comma, lexFrom?_indentation,
        lexFrom?_prettyChars level faithful.1 (apart_cons rfl), lexFrom?,
        lexFrom?_prettyList level faithful.2 apart, tokensList_cons_cons]
      simp

theorem lexFrom?_prettyMembers
    (level : Nat) {members : Members} (faithful : FaithfulMembers members)
    {rest : List Char} (apart : Apart rest) (found : List Token) :
    lexFrom? found (prettyMembers level members ++ rest) =
      lexFrom? ((tokensMembers members).reverse ++ found) rest := by
  have readKey : ∀ (key : String) (rest : List Char),
      lexFrom? found
        (indentation level ++
          (Text.quotedChars key.toList ++ ':' :: ' ' :: rest)) =
        lexFrom? (.colon :: .text key :: found) rest := by
    intro key rest
    have read := lexFrom?_chars (show (Token.text key).Faithful from trivial)
      (apart_cons rfl : Apart (':' :: ' ' :: rest)) found
    rw [lexFrom?_indentation]
    rw [Token.chars] at read
    rw [read, lexFrom?, lexFrom?]
  match members with
  | [] => simp [prettyMembers, tokensMembers]
  | [(key, value)] =>
      have shape : prettyMembers level [(key, value)] ++ rest =
          indentation level ++
            (Text.quotedChars key.toList ++ ':' :: ' ' ::
              (prettyChars level value ++ rest)) := by
        simp [prettyMembers]
      rw [shape, readKey, lexFrom?_prettyChars level faithful.1 apart]
      simp [tokensMembers]
  | (key, value) :: next :: members =>
      have shape :
          prettyMembers level ((key, value) :: next :: members) ++ rest =
            indentation level ++
              (Text.quotedChars key.toList ++ ':' :: ' ' ::
                (prettyChars level value ++ ',' ::
                  (prettyMembers level (next :: members) ++ rest))) := by
        simp [prettyMembers]
      rw [shape, readKey,
        lexFrom?_prettyChars level faithful.1 (apart_cons rfl), lexFrom?,
        lexFrom?_prettyMembers level faithful.2 apart, tokensMembers_cons_cons]
      simp

end

/-- The canonical text of a value has the tokens of the value. -/
theorem lex?_prettyChars {value : Value} (faithful : value.Faithful) :
    Token.lex? (value.prettyChars 0) = some value.tokens := by
  have read :=
    lexFrom?_prettyChars 0 faithful (show Apart [] by rintro _ ⟨⟩) []
  rw [List.append_nil, List.append_nil] at read
  rw [Token.lex?, read, lexFrom?, List.reverse_reverse]

namespace ReadState

/-- Reads tokens one by one. -/
def steps? (limit : Nat) (state : ReadState) (tokens : List Token) :
    Option ReadState :=
  tokens.foldlM (step? limit) state

theorem steps?_cons
    (limit : Nat) (state : ReadState) (token : Token) (rest : List Token) :
    steps? limit state (token :: rest) =
      (step? limit state token).bind fun next => steps? limit next rest := by
  simp [steps?]

/-- Where an array may end before its first item, a value is read as
elsewhere. -/
theorem steps?_valueOrEnd
    (limit : Nat) (stack : List Frame) (value : Value) (rest : List Token) :
    steps? limit ⟨stack, .valueOrEnd⟩ (value.tokens ++ rest) =
      steps? limit ⟨stack, .value⟩ (value.tokens ++ rest) := by
  cases value <;> simp [tokens, steps?_cons, step?]

theorem steps?_arrayStart
    (limit : Nat) (stack : List Frame) (item : Value) (items : List Value)
    (rest : List Token) :
    steps? limit ⟨stack, .valueOrEnd⟩ (tokensList (item :: items) ++ rest) =
      steps? limit ⟨stack, .value⟩ (tokensList (item :: items) ++ rest) := by
  cases items with
  | nil => exact steps?_valueOrEnd limit stack item rest
  | cons next items =>
      rw [tokensList_cons_cons, List.append_assoc]
      exact steps?_valueOrEnd limit stack item _

theorem steps?_objectStart
    (limit : Nat) (stack : List Frame) (member : String × Value)
    (members : Members) (rest : List Token) :
    steps? limit ⟨stack, .keyOrEnd⟩
      (tokensMembers (member :: members) ++ rest) =
      steps? limit ⟨stack, .key⟩
        (tokensMembers (member :: members) ++ rest) := by
  cases members <;> simp [tokensMembers, steps?_cons, step?]

/-- A key and a colon open a member of the innermost object. -/
theorem steps?_key
    (limit : Nat) (stack : List Frame) (members : Members) (key : String)
    (rest : List Token) :
    steps? limit ⟨.object members :: stack, .key⟩
      (.text key :: .colon :: rest) =
      steps? limit ⟨.member members key :: stack, .value⟩ rest := by
  simp [steps?_cons, step?, beginMember?]

mutual

theorem steps?_tokens
    {limit : Nat} {value : Value} (faithful : value.Faithful)
    {stack : List Frame} (fits : stack.length + value.depth ≤ limit)
    (rest : List Token) :
    steps? limit ⟨stack, .value⟩ (value.tokens ++ rest) =
      (complete? value stack).bind fun next => steps? limit next rest := by
  match value with
  | .null => simp [tokens, steps?_cons, step?, begin?]
  | .bool _ => simp [tokens, steps?_cons, step?, begin?]
  | .number _ => simp [tokens, steps?_cons, step?, begin?]
  | .string _ => simp [tokens, steps?_cons, step?, begin?]
  | .array [] =>
      rw [depth] at fits
      have room : stack.length < limit := by omega
      simp [tokens, tokensList, steps?_cons, step?, begin?, room, close?]
  | .array (item :: items) =>
      rw [depth] at fits
      have room : stack.length < limit := by omega
      have fitsItems :
          stack.length + 1 + depthList (item :: items) ≤ limit := by omega
      have read := steps?_tokensList (by simp) faithful [] fitsItems rest
      rw [tokens, List.cons_append, List.append_assoc, steps?_cons]
      simp only [step?, begin?, room, if_true, Option.bind_some]
      rw [List.singleton_append, steps?_arrayStart, read, List.reverse_nil,
        List.nil_append]
  | .object [] =>
      rw [depth] at fits
      have room : stack.length < limit := by omega
      simp [tokens, tokensMembers, steps?_cons, step?, begin?, room, close?,
        Members.ofPairs]
  | .object (member :: members) =>
      rw [depth] at fits
      obtain ⟨distinct, faithful⟩ := faithful
      have room : stack.length < limit := by omega
      have fitsMembers :
          stack.length + 1 + depthMembers (member :: members) ≤ limit := by
        omega
      have read := steps?_tokensMembers (by simp) faithful [] fitsMembers rest
      rw [tokens, List.cons_append, List.append_assoc, steps?_cons]
      simp only [step?, begin?, room, if_true, Option.bind_some]
      rw [List.singleton_append, steps?_objectStart, read, List.reverse_nil,
        List.nil_append, Members.ofPairs_of_nodup distinct]

theorem steps?_tokensList
    {limit : Nat} {items : List Value} (notEmpty : items ≠ [])
    (faithful : FaithfulList items) {stack : List Frame} (done : List Value)
    (fits : stack.length + 1 + depthList items ≤ limit) (rest : List Token) :
    steps? limit ⟨.array done :: stack, .value⟩
      (tokensList items ++ .rightBracket :: rest) =
      (complete? (.array (done.reverse ++ items)) stack).bind fun next =>
        steps? limit next rest := by
  match items with
  | [] => exact absurd rfl notEmpty
  | [item] =>
      have fitsItem :
          (Frame.array done :: stack).length + item.depth ≤ limit := by
        rw [depthList] at fits
        rw [List.length_cons]
        omega
      rw [tokensList, steps?_tokens faithful.1 fitsItem, complete?,
        Option.bind_some, steps?_cons]
      simp [step?, close?]
  | item :: next :: items =>
      rw [depthList] at fits
      have fitsItem :
          (Frame.array done :: stack).length + item.depth ≤ limit := by
        rw [List.length_cons]
        omega
      have fitsRest :
          stack.length + 1 + depthList (next :: items) ≤ limit := by omega
      have read :=
        steps?_tokensList (by simp) faithful.2 (item :: done) fitsRest rest
      rw [tokensList_cons_cons, List.append_assoc,
        steps?_tokens faithful.1 fitsItem, complete?, Option.bind_some,
        List.cons_append, steps?_cons]
      simp only [step?, if_true, separate?, Option.bind_some]
      rw [read, List.reverse_cons, List.append_assoc, List.singleton_append]

theorem steps?_tokensMembers
    {limit : Nat} {members : Members} (notEmpty : members ≠ [])
    (faithful : FaithfulMembers members) {stack : List Frame} (done : Members)
    (fits : stack.length + 1 + depthMembers members ≤ limit)
    (rest : List Token) :
    steps? limit ⟨.object done :: stack, .key⟩
      (tokensMembers members ++ .rightBrace :: rest) =
      (complete? (.object (Members.ofPairs (done.reverse ++ members)))
        stack).bind
        fun next => steps? limit next rest := by
  match members with
  | [] => exact absurd rfl notEmpty
  | [(key, value)] =>
      have fitsValue :
          (Frame.member done key :: stack).length + value.depth ≤ limit := by
        rw [depthMembers] at fits
        rw [List.length_cons]
        omega
      rw [tokensMembers, List.cons_append, List.cons_append, steps?_key,
        steps?_tokens faithful.1 fitsValue, complete?, Option.bind_some,
        steps?_cons]
      simp [step?, close?]
  | (key, value) :: next :: members =>
      rw [depthMembers] at fits
      have fitsValue :
          (Frame.member done key :: stack).length + value.depth ≤ limit := by
        rw [List.length_cons]
        omega
      have fitsRest :
          stack.length + 1 + depthMembers (next :: members) ≤ limit := by omega
      have read :=
        steps?_tokensMembers (by simp) faithful.2 ((key, value) :: done)
          fitsRest rest
      rw [tokensMembers_cons_cons, List.cons_append, List.cons_append,
        List.append_assoc, steps?_key, steps?_tokens faithful.1 fitsValue,
        complete?, Option.bind_some, List.cons_append, steps?_cons]
      simp only [step?, if_true, separate?, Option.bind_some]
      rw [read, List.reverse_cons, List.append_assoc, List.singleton_append]

end

end ReadState

/-- A value is read back from its canonical text. -/
theorem ofJson?_pretty
    {value : Value} (faithful : value.Faithful)
    (shallow : value.depth ≤ maxNesting) :
    ofJson? value.pretty = some value := by
  have fits : ([] : List Frame).length + value.depth ≤ maxNesting := by
    simpa using shallow
  have read := ReadState.steps?_tokens faithful fits []
  rw [List.append_nil] at read
  simp only [ReadState.steps?] at read
  simp [ofJson?, ofJsonWithin?, pretty, lex?_prettyChars faithful, read,
    ReadState.complete?]

end Value

end Workflow
