import Workflow.Proofs.Condition.Denial
import Workflow.Proofs.Condition.Exposure
import Workflow.Proofs.Program.EnvironmentLines

/-!
# Expressions and conditions that read nothing

The expressions of values show no reads, whatever their strings say: only code
between strings is looked at, and there the names of a program stand.  A
condition comes from the document as it is, so it is the deny-list that keeps
reads out of it: nothing that it lets pass names the module `os`, and to put
lookups in the place of references does not change that.
-/

namespace Workflow.Program.Environment

theorem shows_commaSeparated
    {texts : List String} {parts : List (List (Option String))}
    (each :
      List.Forall₂ (fun text part => Shows text.toList part) texts parts) :
    Shows (Text.commaSeparated texts).toList parts.flatten := by
  have comma : Closes ", ".toList [] := closes_front (by decide)
  unfold Text.commaSeparated
  induction each with
  | nil => exact closes_nil.shows
  | @cons text part texts parts first others induction =>
      cases others with
      | nil =>
          rw [List.flatten_singleton]
          exact first
      | @cons next _ texts _ second others =>
          have joined : (Text.joined ", " (text :: next :: texts)).toList =
              (text.toList ++ ", ".toList) ++
                (Text.joined ", " (next :: texts)).toList := by
            simp [Text.joined]
          rw [joined, List.flatten_cons]
          exact (first.behind comma (by decide)).append_shows induction

theorem forall₂_items
    {items : List String} (each : ∀ item ∈ items, Shows item.toList []) :
    List.Forall₂ (fun text part => Shows text.toList part) items
      (items.map fun _ => []) :=
  List.forall₂_map_right_iff.mpr (List.forall₂_same.mpr each)

theorem flatten_items (items : List String) :
    (items.map fun _ => ([] : List (Option String))).flatten = [] :=
  List.flatten_eq_nil_iff.mpr (by simp)

theorem shows_items
    {items : List String} (each : ∀ item ∈ items, Shows item.toList []) :
    Shows (Text.commaSeparated items).toList [] := by
  have shows := shows_commaSeparated (forall₂_items each)
  rwa [flatten_items] at shows

/-- Something that is applied to arguments. -/
theorem closes_application
    (front : String) {text : String} {arguments : List Char}
    {found : List (Option String)} (named : Shows front.toList [])
    (shows : Shows arguments found)
    (shape : text.toList = front.toList ++ '(' :: (arguments ++ [')'])) :
    Closes text.toList found := by
  rw [shape]
  exact named.before (shows.enclosed (by decide) (by decide)) (by decide)

theorem closes_listExpression
    {items : List String} (each : ∀ item ∈ items, Shows item.toList []) :
    Closes (listExpression items).toList [] := by
  have shape : (listExpression items).toList =
      '[' :: ((Text.commaSeparated items).toList ++ [']']) := by
    simp [listExpression]
  rw [shape]
  exact (shows_items each).enclosed (by decide) (by decide)

theorem closes_dictionary
    {entries : List String} {parts : List (List (Option String))}
    (each :
      List.Forall₂ (fun text part => Shows text.toList part) entries parts) :
    Closes (dictionaryExpression entries).toList parts.flatten := by
  have shape : (dictionaryExpression entries).toList =
      '\x7b' :: ((Text.commaSeparated entries).toList ++ ['\x7d']) := by
    simp [dictionaryExpression]
  rw [shape]
  exact (shows_commaSeparated each).enclosed (by decide) (by decide)

theorem closes_dictionaryExpression {entries : List String}
    (each : ∀ entry ∈ entries, Shows entry.toList []) :
    Closes (dictionaryExpression entries).toList [] := by
  have closes := closes_dictionary (forall₂_items each)
  rwa [flatten_items] at closes

theorem shows_entry
    {key value : String} {found : List (Option String)}
    (shows : Shows value.toList found) :
    Shows (entry key value).toList found := by
  have colon : Closes ": ".toList [] := closes_front (by decide)
  rw [entry, String.toList_append, String.toList_append]
  exact ((closes_quoted key).before colon).before_shows shows

theorem shows_number (number : Number) : Shows number.render.toList [] := by
  have plain :
      ∀ c, Token.isNumberChar c = true → c ∉ ['o', '#', '"', '\''] := by
    intro c numberChar member
    simp only [List.mem_cons, List.not_mem_nil, or_false] at member
    rcases member with rfl | rfl | rfl | rfl
    all_goals exact absurd numberChar (by decide)
  obtain ⟨first, rest, shape, start, inRest⟩ := number.chars_eq_cons
  rw [Number.render, String.toList_ofList, shape]
  apply shows_quiet
  apply isQuiet_of_forall
  rw [List.forall_mem_cons]
  refine ⟨plain first ?_, fun c member => plain c (inRest c member)⟩
  simp only [Bool.or_eq_true, beq_iff_eq] at start
  rcases start with digit | rfl
  · exact Number.isNumberChar_of_isDigit digit
  · rfl

mutual

theorem shows_literal (value : Value) : Shows (literal value).toList [] := by
  match value with
  | .null => exact shows_quiet (by decide)
  | .bool true => exact shows_quiet (by decide)
  | .bool false => exact shows_quiet (by decide)
  | .number value => exact shows_number value
  | .string text => exact (closes_quoted text).shows
  | .array items =>
      exact (closes_listExpression (shows_literalList items)).shows
  | .object members =>
      exact (closes_dictionaryExpression (shows_literalMembers members)).shows

theorem shows_literalList (items : List Value) :
    ∀ item ∈ literalList items, Shows item.toList [] := by
  match items with
  | [] => simp [literalList]
  | item :: rest =>
      exact List.forall_mem_cons.mpr
        ⟨shows_literal item, shows_literalList rest⟩

theorem shows_literalMembers (members : List (String × Value)) :
    ∀ entry ∈ literalMembers members, Shows entry.toList [] := by
  match members with
  | [] => simp [literalMembers]
  | (key, value) :: rest =>
      exact List.forall_mem_cons.mpr
        ⟨shows_entry (shows_literal value), shows_literalMembers rest⟩

end

theorem shows_fieldExpression (field : String) :
    Shows (fieldExpression field).toList [] := by
  simp only [fieldExpression]
  split
  · rename_i digits
    obtain ⟨_, allDigits⟩ := Bool.and_eq_true_iff.mp digits
    split
    · exact shows_quiet (by decide)
    · rw [String.toList_ofList]
      apply shows_name
      intro c member
      have inField : c ∈ field.toList :=
        (List.dropWhile_sublist _).subset member
      exact isFieldChar_of_isDigit (List.all_eq_true.mp allDigits c inField)
  · exact (closes_quoted field).shows

theorem closes_lookup (reference : Reference) :
    Closes (lookup reference).toList [] := by
  have arguments : ∀ item ∈ Text.quoted reference.root :: reference.path.map
      fieldExpression, Shows item.toList [] := by
    refine List.forall_mem_cons.mpr ⟨(closes_quoted reference.root).shows, ?_⟩
    intro item member
    obtain ⟨field, _, rfl⟩ := List.mem_map.mp member
    exact shows_fieldExpression field
  exact closes_application "ctx.get" (shows_quiet (by decide))
    (shows_items arguments) (by simp [lookup])

theorem shows_templateExpression (segments : List Template.Segment) :
    Shows (templateExpression segments).toList [] := by
  have ofSegment : ∀ segment : Template.Segment,
      Shows (segmentExpression segment).toList [] := by
    intro segment
    cases segment with
    | literal text => exact (closes_quoted text).shows
    | reference target => exact (closes_lookup target).shows
  have each :
      ∀ item ∈ segments.map segmentExpression, Shows item.toList [] := by
    intro item member
    obtain ⟨segment, _, rfl⟩ := List.mem_map.mp member
    exact ofSegment segment
  fun_cases templateExpression segments with
  | case1 => exact (closes_quoted "").shows
  | case2 segment => exact ofSegment segment
  | case3 =>
      exact (closes_application "_text" (shows_quiet (by decide))
          (shows_items each) (by simp)).shows

mutual

/-- The expression of a value shows nothing, whatever its strings say. -/
theorem shows_valueExpression {value : Value} {text : String}
    (written : valueExpression value = .ok text) : Shows text.toList [] := by
  match value with
  | .null =>
      obtain rfl := Except.ok.inj written
      exact shows_literal .null
  | .bool value =>
      obtain rfl := Except.ok.inj written
      exact shows_literal (.bool value)
  | .number value =>
      obtain rfl := Except.ok.inj written
      exact shows_literal (.number value)
  | .string content =>
      obtain ⟨segments, _, rfl⟩ := map_eq_ok_iff.mp written
      exact shows_templateExpression segments
  | .array items =>
      obtain ⟨texts, ofItems, rfl⟩ := map_eq_ok_iff.mp written
      exact (closes_listExpression (shows_valueExpressions ofItems)).shows
  | .object members =>
      obtain ⟨texts, ofMembers, rfl⟩ := map_eq_ok_iff.mp written
      exact (closes_dictionaryExpression
          (shows_memberExpressions ofMembers)).shows

theorem shows_valueExpressions
    {items : List Value} {texts : List String}
    (written : valueExpressions items = .ok texts) :
    ∀ text ∈ texts, Shows text.toList [] := by
  match items with
  | [] =>
      obtain rfl := Except.ok.inj written
      simp
  | item :: rest =>
      obtain ⟨first, ofItem, others⟩ := bind_eq_ok_iff.mp written
      obtain ⟨later, ofRest, joined⟩ := bind_eq_ok_iff.mp others
      obtain rfl := Except.ok.inj joined
      exact List.forall_mem_cons.mpr
        ⟨shows_valueExpression ofItem, shows_valueExpressions ofRest⟩

theorem shows_memberExpressions
    {members : List (String × Value)} {texts : List String}
    (written : memberExpressions members = .ok texts) :
    ∀ text ∈ texts, Shows text.toList [] := by
  match members with
  | [] =>
      obtain rfl := Except.ok.inj written
      simp
  | (key, value) :: rest =>
      obtain ⟨first, ofValue, others⟩ := bind_eq_ok_iff.mp written
      obtain ⟨later, ofRest, joined⟩ := bind_eq_ok_iff.mp others
      obtain rfl := Except.ok.inj joined
      exact List.forall_mem_cons.mpr
        ⟨shows_entry (shows_valueExpression ofValue),
          shows_memberExpressions ofRest⟩

end

/-- Whether the module is named with a dot behind it, strings and comments
included, given whether a word stands right in front of the text. -/
def namesModule (glued : Bool) : List Char → Bool
  | [] => false
  | c :: rest =>
      (['o', 's', '.'].isPrefixOf (c :: rest) && !glued) ||
      namesModule (Text.isWordChar c) rest

theorem not_isWordChar_of_behind
    {place : Place} {c : Char} (free : place.behind c = .code false) :
    Text.isWordChar c = false := by
  have ofPart :
      Place.code (isPart c) = .code false → Text.isWordChar c = false := by
    intro same
    exact (Bool.or_eq_false_iff.mp (Place.code.inj same)).1
  unfold Place.behind at free
  split at free
  · split at free
    · cases free
    · split at free
      · cases free
      · exact ofPart free
  · cases free
  · split at free
    · cases free
    · split at free
      · exact ofPart free
      · cases free
  · cases free

theorem readsFrom_eq_nil
    {place : Place} {glued : Bool} {text : List Char}
    (absent : namesModule glued text = false)
    (apart : place = .code false → glued = false) :
    readsFrom place text = [] := by
  induction text generalizing place glued with
  | nil => rfl
  | cons c rest induction =>
      obtain ⟨notHere, notLater⟩ := Bool.or_eq_false_iff.mp absent
      have nothing : readAt place (c :: rest) = [] := by
        by_contra found
        obtain ⟨inCode, more, shape⟩ := exists_of_readAt found
        rw [shape, apart inCode] at notHere
        simp at notHere
      rw [readsFrom, nothing, induction notLater not_isWordChar_of_behind]
      rfl

theorem reads_eq_nil
    {line : List Char} (absent : namesModule false line = false) :
    reads line = [] :=
  readsFrom_eq_nil absent fun _ => rfl

theorem exists_of_namesModule {glued : Bool} {text : List Char}
    (named : namesModule glued text = true) :
    ∃ before after,
      text = before ++ 'o' :: 's' :: '.' :: after ∧ Text.EndsApart before ∧
      (before = [] → glued = false) := by
  induction text generalizing glued with
  | nil => cases named
  | cons c rest induction =>
      rcases Bool.or_eq_true_iff.mp named with here | later
      · obtain ⟨starts, apart⟩ := Bool.and_eq_true_iff.mp here
        obtain ⟨after, shape⟩ := List.isPrefixOf_iff_prefix.mp starts
        refine ⟨[], after, shape.symm, by simp [Text.EndsApart], ?_⟩
        intro _
        simpa using apart
      · obtain ⟨before, after, rfl, endsApart, first⟩ := induction later
        refine ⟨c :: before, after, rfl, ?_, by simp⟩
        intro last isLast
        cases before with
        | nil =>
            obtain rfl : c = last := by simpa using isLast
            exact first rfl
        | cons d before => exact endsApart last (by simpa using isLast)

/-- The deny-list keeps the module out of a condition, the blanks around it
aside. -/
theorem namesModule_trim
    {text : List Char} (passed : Condition.denied? text = none) :
    namesModule false (Text.trim text) = false := by
  rw [← Bool.not_eq_true]
  intro named
  obtain ⟨before, after, inside, endsApart, _⟩ := exists_of_namesModule named
  obtain ⟨lead, trail, whole, leadBlank, _⟩ := Text.exists_eq_append_trim text
  have shape : text =
      (lead ++ before) ++ (['o', 's'] ++ ([] ++ '.' :: (after ++ trail))) := by
    rw [whole, inside]
    simp
  have apart : Text.EndsApart (lead ++ before) := by
    intro last isLast
    rw [List.getLast?_append] at isLast
    cases ending : before.getLast? with
    | some c =>
        rw [ending] at isLast
        obtain rfl : c = last := Option.some.inj isLast
        exact endsApart c ending
    | none =>
        rw [ending] at isLast
        exact Text.not_isWordChar_of_isBlank
          (leadBlank last (List.mem_of_getLast? isLast))
  exact Condition.not_forbidden_of_denied?_eq_none passed
    (.modulePath shape (by decide) apart (by simp))

theorem namesModule_append
    {d : Char} (noWord : Text.isWordChar d = false) {rest : List Char}
    (named : namesModule false rest = true) (front : List Char)
    (glued : Bool) :
    namesModule glued (front ++ d :: rest) = true := by
  induction front generalizing glued with
  | nil =>
      rw [List.nil_append, namesModule, noWord, named, Bool.or_true]
  | cons c front induction =>
      rw [List.cons_append, namesModule, induction, Bool.or_true]

/-- Text without a dot names nothing together with what follows its closing
bracket. -/
theorem namesModule_dotless
    {text : List Char} (dotless : '.' ∉ text) (rest : List Char)
    (glued : Bool) :
    namesModule glued (text ++ ')' :: rest) = namesModule false rest := by
  induction text generalizing glued with
  | nil => rfl
  | cons c text induction =>
      have notHere :
          ['o', 's', '.'].isPrefixOf (c :: (text ++ ')' :: rest)) = false := by
        match text with
        | [] => simp [List.isPrefixOf]
        | [d] => simp [List.isPrefixOf]
        | d :: e :: text =>
            have noDot : '.' ≠ e := by
              rintro rfl
              exact dotless (by simp)
            simp [List.isPrefixOf, noDot]
      rw [List.cons_append, namesModule, notHere, Bool.false_and,
        Bool.false_or,
        induction fun inside => dotless (List.mem_cons_of_mem c inside)]

theorem dot_notMem_fieldExpression
    {field : String} (notEmpty : field.toList ≠ [])
    (fieldChars : ∀ c ∈ field.toList, Reference.isFieldChar c = true) :
    '.' ∉ (fieldExpression field).toList := by
  intro dot
  rcases fieldExpression_toList notEmpty fieldChars with
    ⟨_, _, digits⟩ | ⟨_, quoted⟩
  · exact absurd (digits '.' dot) (by decide)
  · simp only [quoted, List.mem_cons, List.mem_append, List.not_mem_nil,
      or_false] at dot
    rcases dot with isQuote | inside | isQuote
    · exact absurd isQuote (by decide)
    · exact absurd (fieldChars '.' inside) (by decide)
    · exact absurd isQuote (by decide)

/-- A lookup names nothing, and nothing is named across its end. -/
theorem namesModule_lookup
    {target : Reference} (wellFormed : target.WellFormed) (rest : List Char)
    (glued : Bool) :
    namesModule glued ((lookup target).toList ++ rest) =
      namesModule false rest := by
  have dotless : '.' ∉ "get(".toList ++ '"' :: (target.root.toList ++ '"' ::
      target.path.flatMap fun field =>
        ',' :: ' ' :: (fieldExpression field).toList) := by
    simp only [List.mem_append, List.mem_cons, List.mem_flatMap, not_or,
      not_exists, not_and]
    refine ⟨by decide, by decide, ?_, by decide, ?_⟩
    · intro inRoot
      exact absurd (wellFormed.isFieldChar_of_mem_root '.' inRoot) (by decide)
    · intro field inPath
      obtain ⟨notEmpty, fieldChars⟩ := wellFormed.fields field inPath
      exact ⟨by decide, by decide,
        dot_notMem_fieldExpression notEmpty fieldChars⟩
  have start : ∀ more, namesModule glued ('c' :: 't' :: 'x' :: '.' :: more) =
      namesModule false more := fun _ => rfl
  have shape : (lookup target).toList ++ rest = 'c' :: 't' :: 'x' :: '.' ::
      (("get(".toList ++ '"' :: (target.root.toList ++ '"' ::
        target.path.flatMap fun field =>
          ',' :: ' ' :: (fieldExpression field).toList)) ++ ')' :: rest) := by
    rw [lookup_toList wellFormed]
    simp [lookupStart]
  rw [shape, start, namesModule_dotless dotless]

/-- What stands at the start of a text stands there before references are
replaced, unless a lookup begins with it. -/
theorem exists_cons_of_substitute
    {text more : List Char} {c : Char} (other : c ≠ 'c')
    (starts : Template.substitute (fun reference => (lookup reference).toList)
      text = c :: more) :
    ∃ rest, text = c :: rest ∧
      Template.substitute (fun reference => (lookup reference).toList) rest =
        more := by
  revert starts
  unfold Template.substitute
  induction text using Template.atoms_induction with
  | nil => simp
  | char d rest _ _ =>
      intro starts
      rw [List.flatMap_cons, List.singleton_append] at starts
      obtain ⟨rfl, same⟩ := List.cons.inj starts
      exact ⟨rest, rfl, same⟩
  | reference target after wellFormed _ =>
      intro starts
      have first : ((lookup target).toList ++ _).head? = some c :=
        congrArg List.head? starts
      rw [lookup_toList wellFormed] at first
      exact absurd (Option.some.inj first).symm other

theorem namesModule_of_substitute
    {text : List Char} {glued : Bool}
    (named : namesModule glued
      (Template.substitute (fun reference => (lookup reference).toList) text) =
      true) :
    namesModule glued text = true := by
  revert named glued
  have starts : ∀ rest, ['s', '.'] <+:
      Template.substitute (fun reference => (lookup reference).toList) rest →
      ['s', '.'] <+: rest := by
    intro rest isPrefix
    obtain ⟨more, shape⟩ := isPrefix
    obtain ⟨behind, rfl, same⟩ :=
      exists_cons_of_substitute (by decide) shape.symm
    obtain ⟨later, rfl, _⟩ := exists_cons_of_substitute (by decide) same
    exact ⟨later, rfl⟩
  unfold Template.substitute at starts ⊢
  induction text using Template.atoms_induction with
  | nil => simp
  | char c rest _ induction =>
      intro glued named
      rw [List.flatMap_cons, List.singleton_append, namesModule] at named
      rcases Bool.or_eq_true_iff.mp named with here | later
      · obtain ⟨isPrefix, apart⟩ := Bool.and_eq_true_iff.mp here
        obtain ⟨isStart, inRest⟩ :=
          List.cons_prefix_cons.mp (List.isPrefixOf_iff_prefix.mp isPrefix)
        have before : ['o', 's', '.'].isPrefixOf (c :: rest) = true :=
          List.isPrefixOf_iff_prefix.mpr
            (List.cons_prefix_cons.mpr ⟨isStart, starts rest inRest⟩)
        rw [namesModule, before, apart]
        rfl
      · rw [namesModule, induction later, Bool.or_true]
  | reference target after wellFormed induction =>
      intro glued named
      rw [List.flatMap_cons] at named
      have later :=
        induction ((namesModule_lookup wellFormed _ glued).symm.trans named)
      have shape : target.chars ++ after =
          ('\x7b' :: '\x7b' :: target.inner ++ ['\x7d']) ++ '\x7d' ::
            after := by
        simp [Reference.chars, Reference.inner]
      rw [shape]
      exact namesModule_append (by decide) later _ glued

theorem namesModule_concat
    {text : List Char} {c : Char} (noDot : c ≠ '.') (glued : Bool) :
    namesModule glued (text ++ [c]) = namesModule glued text := by
  induction text generalizing glued with
  | nil => simp [namesModule, List.isPrefixOf]
  | cons d text induction =>
      have same : ['o', 's', '.'].isPrefixOf (d :: (text ++ [c])) =
          ['o', 's', '.'].isPrefixOf (d :: text) := by
        match text with
        | [] => simp [List.isPrefixOf]
        | [e] => simp [List.isPrefixOf, Ne.symm noDot]
        | e :: f :: text => simp [List.isPrefixOf]
      rw [List.cons_append, namesModule, namesModule, same, induction]

/-- The question that an accepted condition becomes reads nothing. -/
theorem reads_condition
    {condition : String} (accepted : Condition.check condition = .ok ())
    {keyword : String} (isKeyword : keyword = "if " ∨ keyword = "elif ") :
    reads (keyword ++ conditionExpression condition ++ ":").toList = [] := by
  obtain ⟨_, passed, _⟩ := Condition.check_eq_ok_iff.mp accepted
  have absent :
      namesModule false (conditionExpression condition).toList = false := by
    rw [conditionExpression, String.toList_ofList, ← Bool.not_eq_true]
    intro named
    have inTrimmed := namesModule_of_substitute named
    rw [namesModule_trim passed] at inTrimmed
    cases inTrimmed
  have start : ∀ more,
      namesModule false (keyword.toList ++ more) = namesModule false more := by
    intro more
    rcases isKeyword with rfl | rfl <;> rfl
  apply reads_eq_nil
  rw [String.toList_append, String.toList_append]
  exact (namesModule_concat (by decide) false).trans ((start _).trans absent)

end Workflow.Program.Environment
