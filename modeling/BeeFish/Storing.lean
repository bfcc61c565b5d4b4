/-
# What a JSON text stores

What the paths are asked for a value is its `asked`, for the names that its keys
have when a value begins and when it has been read. The parser has two names for
a key: the key stack has the value of the key, or the id of the user for `my`,
and `onobjectvalue` uses the value of the key as it is
(`JSONPathParser.run_members`).

A key should have one name everywhere, the whole key, or the id of the user for
`my`. What is asked is the same exactly if the two names of the parser are this
one wherever they are used (`stores_under_one_name`).

Key definitions: `JSONValue.asked`, `JSONValue.Agrees`, `propertyName`.
-/
import BeeFish.JSONPathParser

namespace BeeFish

/-- The property of a key: the whole key, or the id of the user for `my`. -/
def propertyName (userId : BString) (key : List BString) : BString :=
  if key.flatten = text "my" then userId else key.flatten

/-- The name that a key has on the key stack. -/
def stackName (userId : BString) (key : List BString) : BString :=
  if JSONValue.keyValue key = text "my" then userId else JSONValue.keyValue key

namespace JSONValue

/-! ### What the paths are asked for -/

/-- Whether a path is taken when the value begins. -/
def begins : JSONValue → Bool
  | string _ => true
  | array _ => true
  | object _ => true
  | _ => false

/-- What the path of a value that is not a string is asked when it has been read. -/
def setCall (path : Place) : JSONValue → List JSONPathCall
  | undefined => [.setUndefined path]
  | null => [.setNull path]
  | boolean value => [.setBoolean path value]
  | integer value => [.setInteger path value]
  | number value => [.setNumber path value]
  | string _ => []
  | array _ => [.setArray path]
  | object _ => [.setObject path]

/-- Whether the words of a string are indexed: not those of data. -/
def indexedParts : ℕ → Bool → List BString → Bool
  | _, indexed, [] => indexed
  | n, indexed, part :: parts =>
    indexedParts (n + 1) (if n = 0 then !part.isData else indexed) parts

/-- The pages of a string from one on, and its end. -/
def stringCalls (path : Place) : ℕ → Bool → List BString → List JSONPathCall
  | n, indexed, [] => [.endString path n indexed]
  | n, indexed, part :: parts =>
    .setString path part n (if n = 0 then !part.isData else indexed) ::
      stringCalls path (n + 1) (if n = 0 then !part.isData else indexed) parts

mutual

/-- The same after a value, as a string without parts keeps what was. -/
def indexed : Bool → JSONValue → Bool
  | before, string parts => indexedParts 0 before parts
  | before, array items => indexedItems before items
  | before, object members => indexedMembers before members
  | before, _ => before

def indexedItems : Bool → List JSONValue → Bool
  | before, [] => before
  | before, item :: items => indexedItems (indexed before item) items

def indexedMembers : Bool → List (List BString × JSONValue) → Bool
  | before, [] => before
  | before, (_, value) :: members => indexedMembers (indexed before value) members

end

section

variable (first last : List BString → BString)

mutual

/-- What is asked for a value below its path, where `first` is the name of a key
when a value begins and `last` when it has been read. -/
def asked : Place → Bool → JSONValue → List JSONPathCall
  | path, before, string parts => stringCalls path 0 before parts
  | path, before, array items =>
    .setArray path :: (askedItems path 0 before items ++ [.truncateArray path items.length])
  | path, before, object members => .setObject path :: askedMembers path before members
  | _, _, _ => []

/-- The items after the first `i`. -/
def askedItems : Place → ℕ → Bool → List JSONValue → List JSONPathCall
  | _, _, _, [] => []
  | path, i, before, item :: items =>
    (if item.begins then
      .item path (i + 1) :: asked (path ++ [.integer (i + 1)]) before item else []) ++
    (if item.type ≠ .string then
      .item path (i + 1) :: setCall (path ++ [.integer (i + 1)]) item else []) ++
    askedItems path (i + 1) (indexed before item) items

def askedMembers : Place → Bool → List (List BString × JSONValue) → List JSONPathCall
  | _, _, [] => []
  | path, before, (key, value) :: members =>
    (if value.begins then
      .property path (first key) :: asked (path ++ [.string (first key)]) before value else []) ++
    (if value.type ≠ .string then
      .property path (last key) :: setCall (path ++ [.string (last key)]) value else []) ++
    askedMembers path (indexed before value) members

end

end

/-! ### One name for a key -/

section

variable (first last name : List BString → BString)

mutual

/-- The names of the keys are that of the key wherever they are used. -/
def Agrees : JSONValue → Prop
  | array items => AgreesItems items
  | object members => AgreesMembers members
  | _ => True

def AgreesItems : List JSONValue → Prop
  | [] => True
  | item :: items => Agrees item ∧ AgreesItems items

def AgreesMembers : List (List BString × JSONValue) → Prop
  | [] => True
  | (key, value) :: members =>
    ((value.begins → first key = name key ∧ Agrees value) ∧
      (value.type ≠ .string → last key = name key)) ∧
      AgreesMembers members

end

end

section

variable {first last first' last' : List BString → BString} {path path' : Place}

theorem length_setCall (path path' : Place) (v : JSONValue) :
    (setCall path v).length = (setCall path' v).length := by
  cases v <;> rfl

theorem length_stringCalls (path path' : Place) : ∀ (parts : List BString) (n : ℕ) (before : Bool),
    (stringCalls path n before parts).length = (stringCalls path' n before parts).length
  | [], _, _ => rfl
  | _ :: parts, n, _ => by
    rw [stringCalls, stringCalls, List.length_cons, List.length_cons,
      length_stringCalls path path' parts]

mutual

/-- As much is asked whatever the names are. -/
theorem length_asked : ∀ (v : JSONValue) (path path' : Place) (before : Bool),
    (asked first last path before v).length = (asked first' last' path' before v).length
  | .string parts, path, path', before => by
    rw [asked, asked]
    exact length_stringCalls path path' parts 0 before
  | .array items, path, path', before => by
    rw [asked, asked]
    simp [length_askedItems items path path' 0 before]
  | .object members, path, path', before => by
    rw [asked, asked]
    simp [length_askedMembers members path path' before]
  | .undefined, _, _, _ => rfl
  | .null, _, _, _ => rfl
  | .boolean _, _, _, _ => rfl
  | .integer _, _, _, _ => rfl
  | .number _, _, _, _ => rfl

theorem length_askedItems : ∀ (items : List JSONValue) (path path' : Place) (i : ℕ) (before : Bool),
    (askedItems first last path i before items).length =
      (askedItems first' last' path' i before items).length
  | [], _, _, _, _ => rfl
  | item :: items, path, path', i, before => by
    have hitem := length_asked item (path ++ [.integer (i + 1)])
      (path' ++ [.integer (i + 1)]) before
    have hset := length_setCall (path ++ [.integer (i + 1)]) (path' ++ [.integer (i + 1)]) item
    rw [askedItems, askedItems, List.length_append, List.length_append, List.length_append,
      List.length_append,
      length_askedItems items path path' (i + 1) (indexed before item)]
    split_ifs <;> simp [hitem, hset]

theorem length_askedMembers :
    ∀ (members : List (List BString × JSONValue)) (path path' : Place) (before : Bool),
    (askedMembers first last path before members).length =
      (askedMembers first' last' path' before members).length
  | [], _, _, _ => rfl
  | (key, value) :: members, path, path', before => by
    have hvalue := length_asked value (path ++ [.string (first key)])
      (path' ++ [.string (first' key)]) before
    have hset := length_setCall (path ++ [.string (last key)])
      (path' ++ [.string (last' key)]) value
    rw [askedMembers, askedMembers, List.length_append, List.length_append, List.length_append,
      List.length_append,
      length_askedMembers members path path' (indexed before value)]
    split_ifs <;> simp [hvalue, hset]

end

end

theorem append_iff {α : Type} {a a' b b' : List α} (h : a.length = a'.length) : a ++ b = a' ++ b' ↔
    a = a' ∧ b = b' :=
  ⟨fun heq => List.append_inj heq h, fun ⟨ha, hb⟩ => by rw [ha, hb]⟩

section

variable {first last name : List BString → BString}

/-- What is asked for one value with its key. -/
theorem asked_member_iff {v : JSONValue} (path : Place) (before : Bool) (key : List BString)
    (h : ∀ path, asked first last path before v = asked name name path before v ↔
      v.Agrees first last name) :
    ((if v.begins then
        JSONPathCall.property path (first key) :: asked first last (path ++ [.string (first key)])
          before v else []) ++
      (if v.type ≠ .string then
        JSONPathCall.property path (last key) :: setCall (path ++ [.string (last key)]) v else []) =
    (if v.begins then
        JSONPathCall.property path (name key) :: asked name name (path ++ [.string (name key)])
          before v else []) ++
      (if v.type ≠ .string then
        JSONPathCall.property path (name key) :: setCall (path ++ [.string (name key)]) v
      else [])) ↔
    (v.begins → first key = name key ∧ v.Agrees first last name) ∧
      (v.type ≠ .string → last key = name key) := by
  rw [append_iff]
  · refine and_congr ?_ ?_
    · split_ifs with hbegins
      · rw [List.cons.injEq, JSONPathCall.property.injEq]
        constructor
        · rintro ⟨⟨-, hname⟩, hasked⟩ -
          rw [hname] at hasked
          exact ⟨hname, (h _).mp hasked⟩
        · intro hagrees
          obtain ⟨hname, hagrees⟩ := hagrees hbegins
          rw [hname]
          exact ⟨⟨rfl, rfl⟩, (h _).mpr hagrees⟩
      · exact iff_of_true rfl fun h => absurd h hbegins
    · split_ifs with htype
      · rw [List.cons.injEq, JSONPathCall.property.injEq]
        constructor
        · rintro ⟨⟨-, hname⟩, -⟩ -
          exact hname
        · intro hname
          rw [hname htype]
          exact ⟨⟨rfl, rfl⟩, rfl⟩
      · exact iff_of_true rfl fun h => absurd h htype
  · split_ifs
    · rw [List.length_cons, List.length_cons, length_asked v _ (path ++ [.string (name key)])]
    · rfl

mutual

/-- **The same is asked exactly if the names agree.** -/
theorem asked_iff : ∀ (v : JSONValue) (path : Place) (before : Bool),
    asked first last path before v = asked name name path before v ↔ v.Agrees first last name
  | .array items, path, before => by
    rw [asked, asked, Agrees, List.cons.injEq, List.append_left_inj, askedItems_iff items]
    exact and_iff_right rfl
  | .object members, path, before => by
    rw [asked, asked, Agrees, List.cons.injEq, askedMembers_iff members]
    exact and_iff_right rfl
  | .string _, _, _ => iff_of_true (by rw [asked, asked]) trivial
  | .undefined, _, _ => iff_of_true rfl trivial
  | .null, _, _ => iff_of_true rfl trivial
  | .boolean _, _, _ => iff_of_true rfl trivial
  | .integer _, _, _ => iff_of_true rfl trivial
  | .number _, _, _ => iff_of_true rfl trivial

theorem askedItems_iff : ∀ (items : List JSONValue) (path : Place) (i : ℕ) (before : Bool),
    askedItems first last path i before items = askedItems name name path i before items ↔
      AgreesItems first last name items
  | [], _, _, _ => iff_of_true rfl trivial
  | item :: items, path, i, before => by
    have hitem := asked_iff item (path ++ [.integer (i + 1)]) before
    have hlength : (asked first last (path ++ [.integer (i + 1)]) before item).length =
        (asked name name (path ++ [.integer (i + 1)]) before item).length :=
          length_asked item _ _ before
    rw [askedItems, askedItems, AgreesItems, append_iff, askedItems_iff items, List.append_left_inj]
    · refine and_congr_left' ?_
      split_ifs with hbegins
      · rw [List.cons.injEq, hitem]
        exact and_iff_right rfl
      · refine iff_of_true rfl (hitem.mp ?_)
        cases item <;> first | rfl | exact absurd rfl hbegins
    · rw [List.length_append, List.length_append]
      split_ifs <;> simp [hlength]

theorem askedMembers_iff :
    ∀ (members : List (List BString × JSONValue)) (path : Place) (before : Bool),
    askedMembers first last path before members = askedMembers name name path before members ↔
      AgreesMembers first last name members
  | [], _, _ => iff_of_true rfl trivial
  | (key, value) :: members, path, before => by
    have hlength : ∀ path path', (asked first last path before value).length =
      (asked name name path' before value).length :=
      fun path path' => length_asked value path path' before
    rw [askedMembers, askedMembers, AgreesMembers, append_iff, askedMembers_iff members,
      asked_member_iff path before key fun path => asked_iff value path before]
    rw [List.length_append, List.length_append]
    split_ifs <;>
      simp [hlength _ (path ++ [.string (name key)]),
      length_setCall _ (path ++ [.string (name key)])]

end

end

end JSONValue

/-! ### Runs -/

namespace JSONPathParser

open JSONValue

variable {userId : BString} {parser : JSONPathParser} {path : Place} {paths : List Place}

theorem run_append (es fs : List Event) :
    run userId parser (es ++ fs) = (run userId parser es).bind fun parser => run userId parser fs :=
  List.foldlM_append ..

theorem run_cons (e : Event) (es : List Event) :
    run userId parser (e :: es) = (step userId parser e).bind fun parser => run userId parser es :=
  List.foldlM_cons ..

/-- The stacks are as they were, and this has been asked. -/
structure Kept (parser after : JSONPathParser) (calls : List JSONPathCall)
    (indexed : Bool) : Prop where
  start : after.start = parser.start
  pathStack : after.pathStack = parser.pathStack
  indexStack : after.indexStack = parser.indexStack
  keyStack : after.keyStack = parser.keyStack
  typeStack : after.typeStack = parser.typeStack
  indexString : after.indexString = indexed
  calls : after.calls = parser.calls ++ calls

/-- What a path that is not one of a string is asked. -/
theorem setVariable_eq (parser : JSONPathParser) (path : Place) {v : JSONValue}
    (h : v.type ≠ .string) :
    parser.setVariable path v.type v.text =
      some { parser with calls := parser.calls ++ setCall path v } := by
  cases v <;> first | rfl | exact absurd rfl h

/-- Inside of a set the end of a value is nothing. -/
theorem onvalue_inside (h : parser.pathStack = path :: paths) (type : JSONType) (value : BString) :
    parser.onvalue type value = some parser := by
  rw [onvalue, if_neg (by simp [h])]

/-- The pages of a string. -/
theorem run_parts (userId : BString) : ∀ (parts : List BString) (n : ℕ) (parser : JSONPathParser),
    parser.string = path →
    parser.stringPageIndex = n → ∃ after,
      run userId parser (parts.map .onpartstring ++ [.onendstring]) = some after ∧
      Kept parser after (stringCalls path n parser.indexString parts)
        (indexedParts n parser.indexString parts)
  | [], n, parser, hpath, hn => by
    refine ⟨_, rfl, rfl, rfl, rfl, rfl, rfl, rfl, ?_⟩
    rw [stringCalls, ← hpath, ← hn]
    rfl
  | part :: parts, n, parser, hpath, hn => by
    have hpart : parser.onpartstring part =
        { parser with
          indexString := if n = 0 then !part.isData else parser.indexString
          stringPageIndex := n + 1
          calls := parser.calls ++
            [.setString path part n (if n = 0 then !part.isData else parser.indexString)] } := by
      simp only [onpartstring, ask, hn, hpath]
    obtain ⟨after, hrun, hkept⟩ := run_parts userId parts (n + 1) (parser.onpartstring part)
      (by rw [hpart, hpath]) (by rw [hpart])
    rw [hpart] at hkept
    refine ⟨after, hrun, hkept.start, hkept.pathStack, hkept.indexStack, hkept.keyStack,
      hkept.typeStack, hkept.indexString, ?_⟩
    rw [hkept.calls, stringCalls, List.append_assoc]
    rfl

/-- The calls for an object or an array, at the next path. -/
def Fills (userId : BString) (v : JSONValue) : Prop :=
  ∀ (parser opened : JSONPathParser) (path : Place), parser.nextPath = some (path, opened) →
    ∃ after, run userId parser v.body = some after ∧
      Kept opened after (asked (stackName userId) keyValue path opened.indexString v)
        (indexed opened.indexString v)

section

variable {indices : List ℕ} {types : List JSONType} {i : ℕ}

theorem exists_parts {v : JSONValue} (h : v.type = .string) : ∃ parts, v = .string parts := by
  cases v with
  | string parts => exact ⟨parts, rfl⟩
  | _ => cases h

theorem body_scalar {v : JSONValue} (h : v.begins = false) : v.body = [] ∧ ∀ before,
    indexed before v = before := by
  cases v with
  | string _ | array _ | object _ => cases h
  | _ => simp [body, indexed]

theorem run_item {v : JSONValue} (hv : v.begins = true → v.type ≠ .string → Fills userId v)
    (hpath : parser.pathStack = path :: paths) (hindex : parser.indexStack = i :: indices)
    (htype : parser.typeStack = .array :: types) :
    ∃ after, run userId parser (v.body ++ [.onvalue v.type v.text, .onarrayvalue v.type v.text]) =
      some after ∧
      Kept { parser with indexStack := (i + 1) :: indices } after
        ((if v.begins then
            JSONPathCall.item path (i + 1) ::
              asked (stackName userId) keyValue (path ++ [.integer (i + 1)]) parser.indexString v
                else []) ++
          (if v.type ≠ .string then
            JSONPathCall.item path (i + 1) :: setCall (path ++ [.integer (i + 1)]) v else []))
        (indexed parser.indexString v) := by
  have hset : ∀ {p : JSONPathParser}, v.type ≠ .string → p.pathStack = path :: paths →
    p.indexStack = i :: indices →
      run userId p [.onvalue v.type v.text, .onarrayvalue v.type v.text] =
        some { p with
          indexStack := (i + 1) :: indices
          calls := p.calls ++
            (JSONPathCall.item path (i + 1) :: setCall (path ++ [.integer (i + 1)]) v) } := by
    intro p hstring hp hi
    rw [run_cons, step, onvalue_inside hp, Option.bind_some, run_cons, step]
    simp [onarrayvalue, hstring, topPath, topIndex, hp, hi, item, ask,
      setVariable_eq _ _ hstring, run]
  by_cases hstring : v.type = .string
  · obtain ⟨parts, rfl⟩ := exists_parts hstring
    have hopen : parser.onbeginstring = some { parser with
        string := path ++ [.integer (i + 1)]
        indexStack := (i + 1) :: indices
        stringPageIndex := 0
        calls := parser.calls ++ [.item path (i + 1)] } := by
      simp [onbeginstring, topPath, topType, topIndex, hpath, hindex, htype, item, ask]
    obtain ⟨after, hrun, hkept⟩ := run_parts userId parts 0 { parser with
      string := path ++ [.integer (i + 1)]
      indexStack := (i + 1) :: indices
      stringPageIndex := 0
      calls := parser.calls ++ [.item path (i + 1)] } rfl rfl
    rw [body, List.cons_append, run_cons, step, hopen, Option.bind_some, run_append, hrun,
      Option.bind_some]
    refine ⟨after, ?_, hkept.start, hkept.pathStack, hkept.indexStack, hkept.keyStack,
      hkept.typeStack, ?_, ?_⟩
    · rw [run_cons, step, onvalue_inside (hkept.pathStack.trans hpath)]
      rfl
    · rw [hkept.indexString, indexed]
    · rw [hkept.calls]
      simp [begins, type, asked]
  · cases hbegins : v.begins with
    | true =>
      have hnext :
        parser.nextPath = some (path ++ [.integer (i + 1)], parser.ask (.item path (i + 1))) := by
        simp [nextPath, topPath, topType, topIndex, hpath, hindex, htype, item]
      obtain ⟨after, hrun, hkept⟩ := hv hbegins hstring _ _ _ hnext
      rw [run_append, hrun, Option.bind_some, hset hstring (hkept.pathStack.trans hpath)
        (hkept.indexStack.trans hindex)]
      refine ⟨_, rfl, hkept.start, hkept.pathStack, rfl, hkept.keyStack, hkept.typeStack,
        hkept.indexString, ?_⟩
      show after.calls ++ _ = _
      rw [hkept.calls]
      simp [ask, hstring]
    | false =>
      obtain ⟨hbody, hindexed⟩ := body_scalar hbegins
      rw [hbody, List.nil_append, hset hstring hpath hindex]
      refine ⟨_, rfl, rfl, rfl, rfl, rfl, rfl, (hindexed _).symm, ?_⟩
      simp [hstring]

theorem run_member {v : JSONValue} (hv : v.begins = true → v.type ≠ .string → Fills userId v)
    (key : List BString)
    (hpath : parser.pathStack = path :: paths) (htype : parser.typeStack = .object :: types) :
    ∃ after, run userId parser (.onobjectkey (keyValue key) ::
        (v.body ++ [.onvalue v.type v.text, .onobjectvalue (keyValue key) v.type v.text])) =
          some after ∧
      Kept parser after
        ((if v.begins then
            JSONPathCall.property path (stackName userId key) ::
              asked (stackName userId) keyValue (path ++ [.string (stackName userId key)])
                parser.indexString v else []) ++
          (if v.type ≠ .string then
            JSONPathCall.property path (keyValue key) :: setCall (path ++ [.string (keyValue key)])
              v else []))
        (indexed parser.indexString v) := by
  have hset : ∀ {p : JSONPathParser}, v.type ≠ .string → p.pathStack = path :: paths →
      run userId p [.onvalue v.type v.text, .onobjectvalue (keyValue key) v.type v.text] =
        some { p with
          keyStack := p.keyStack.tail
          calls := p.calls ++ (JSONPathCall.property path (keyValue key) :: setCall
            (path ++ [.string (keyValue key)]) v) } := by
    intro p hstring hp
    rw [run_cons, step, onvalue_inside hp, Option.bind_some, run_cons, step]
    simp [onobjectvalue, hstring, topPath, hp, property, ask, setVariable_eq _ _ hstring, run,
      pop_back_key]
  rw [run_cons, step, Option.bind_some, push_back_key, ← stackName]
  by_cases hstring : v.type = .string
  · obtain ⟨parts, rfl⟩ := exists_parts hstring
    obtain ⟨after, hrun, hkept⟩ := run_parts userId parts 0 { parser with
      string := path ++ [.string (stackName userId key)]
      stringPageIndex := 0
      calls := parser.calls ++ [.property path (stackName userId key)] } rfl rfl
    have hopen :
        onbeginstring { parser with keyStack := stackName userId key :: parser.keyStack } =
          some { parser with
        string := path ++ [.string (stackName userId key)]
        stringPageIndex := 0
        calls := parser.calls ++ [.property path (stackName userId key)] } := by
      simp [onbeginstring, topPath, topType, topKey, hpath, htype, property, ask, pop_back_key]
    rw [body, List.cons_append, run_cons, step, hopen, Option.bind_some, run_append, hrun,
      Option.bind_some]
    refine ⟨after, ?_, hkept.start, hkept.pathStack, hkept.indexStack, hkept.keyStack,
      hkept.typeStack, ?_, ?_⟩
    · rw [run_cons, step, onvalue_inside (hkept.pathStack.trans hpath)]
      rfl
    · rw [hkept.indexString, indexed]
    · rw [hkept.calls]
      simp [begins, type, asked]
  · cases hbegins : v.begins with
    | true =>
      have hnext : nextPath { parser with keyStack := stackName userId key :: parser.keyStack } =
          some (path ++ [.string (stackName userId key)],
            ask { parser with keyStack := stackName userId key :: parser.keyStack }
              (.property path (stackName userId key))) := by
        simp [nextPath, topPath, topType, topKey, hpath, htype, property]
      obtain ⟨after, hrun, hkept⟩ := hv hbegins hstring _ _ _ hnext
      rw [run_append, hrun, Option.bind_some, hset hstring (hkept.pathStack.trans hpath)]
      refine ⟨_, rfl, hkept.start, hkept.pathStack, hkept.indexStack, ?_, hkept.typeStack,
        hkept.indexString, ?_⟩
      · exact congrArg List.tail hkept.keyStack
      · show after.calls ++ _ = _
        rw [hkept.calls]
        simp [ask, hstring]
    | false =>
      obtain ⟨hbody, hindexed⟩ := body_scalar hbegins
      have hinside :
        ({ parser with keyStack := stackName userId key :: parser.keyStack } :
        JSONPathParser).pathStack =
          path :: paths := hpath
      rw [hbody, List.nil_append, hset hstring hinside]
      refine ⟨_, rfl, rfl, rfl, rfl, rfl, rfl, (hindexed _).symm, ?_⟩
      simp [hstring]

end

mutual

theorem fills (userId : BString) : ∀ v : JSONValue, v.begins = true → v.type ≠ .string →
    Fills userId v
  | .array items, _, _ => by
    intro parser opened path hnext
    obtain ⟨after, hrun, hkept⟩ := run_items userId items { opened with
      pathStack := path :: opened.pathStack
      indexStack := 0 :: opened.indexStack
      typeStack := .array :: opened.typeStack
      calls := opened.calls ++ [.setArray path] } path 0 rfl rfl rfl
    have hopen : parser.push_back_path .array = some { opened with
        pathStack := path :: opened.pathStack
        indexStack := 0 :: opened.indexStack
        typeStack := .array :: opened.typeStack
        calls := opened.calls ++ [.setArray path] } := by
      simp [push_back_path, hnext, ask]
    rw [body, run_cons, step, hopen, Option.bind_some, run_append, hrun, Option.bind_some]
    have hend : run userId after [.onendarray] = some { after with
        pathStack := opened.pathStack
        indexStack := opened.indexStack
        typeStack := opened.typeStack
        calls := after.calls ++ [.truncateArray path items.length] } := by
      simp [run, step, onendarray, topPath, topIndex, pop_back_path, topType, ask, hkept.pathStack,
        hkept.indexStack,
        hkept.typeStack]
    rw [hend]
    refine ⟨_, rfl, hkept.start, rfl, rfl, hkept.keyStack, rfl, ?_, ?_⟩
    · rw [indexed]
      exact hkept.indexString
    · show after.calls ++ _ = _
      rw [hkept.calls, asked]
      simp
  | .object members, _, _ => by
    intro parser opened path hnext
    obtain ⟨after, hrun, hkept⟩ := run_members userId members { opened with
      pathStack := path :: opened.pathStack
      typeStack := .object :: opened.typeStack
      calls := opened.calls ++ [.setObject path] } path rfl rfl
    have hopen : parser.push_back_path .object = some { opened with
        pathStack := path :: opened.pathStack
        typeStack := .object :: opened.typeStack
        calls := opened.calls ++ [.setObject path] } := by
      simp [push_back_path, hnext, ask]
    rw [body, run_cons, step, hopen, Option.bind_some, run_append, hrun, Option.bind_some]
    have hend : run userId after [.onendobject] = some { after with
        pathStack := opened.pathStack
        typeStack := opened.typeStack } := by
      simp [run, step, pop_back_path, topType, hkept.pathStack, hkept.typeStack]
    rw [hend]
    refine ⟨_, rfl, hkept.start, rfl, hkept.indexStack, hkept.keyStack, rfl, ?_, ?_⟩
    · rw [indexed]
      exact hkept.indexString
    · show after.calls = _
      rw [hkept.calls, asked]
      simp
  | .string _, _, h => absurd rfl h
  | .undefined, h, _ => nomatch h
  | .null, h, _ => nomatch h
  | .boolean _, h, _ => nomatch h
  | .integer _, h, _ => nomatch h
  | .number _, h, _ => nomatch h

/-- The items of an array, on whose path they are. -/
theorem run_items (userId : BString) :
    ∀ (items : List JSONValue) (parser : JSONPathParser) (path : Place) (i : ℕ)
    {paths : List Place} {indices : List ℕ} {types : List JSONType}, parser.pathStack =
      path :: paths →
    parser.indexStack = i :: indices → parser.typeStack = .array :: types →
    ∃ after, run userId parser (itemEvents items) = some after ∧
      Kept { parser with indexStack := (i + items.length) :: indices } after
        (askedItems (stackName userId) keyValue path i parser.indexString items)
        (indexedItems parser.indexString items)
  | [], parser, path, i, paths, indices, types, _, hindex, _ => by
    refine ⟨parser, rfl, rfl, rfl, hindex, rfl, rfl, by rw [indexedItems], ?_⟩
    rw [askedItems]
    exact (List.append_nil _).symm
  | item :: items, parser, path, i, paths, indices, types, hpath, hindex, htype => by
    obtain ⟨middle, hmiddle, hkept⟩ := run_item (fills userId item) hpath hindex htype
    obtain ⟨after, hafter, hkept'⟩ := run_items userId items middle path (i + 1)
      (hkept.pathStack.trans hpath) hkept.indexStack
      (hkept.typeStack.trans htype)
    have hevents : itemEvents (item :: items) =
        (item.body ++ [.onvalue item.type item.text, .onarrayvalue item.type item.text]) ++
          itemEvents items := by
      rw [itemEvents]
      simp
    rw [hevents, run_append, hmiddle, Option.bind_some, hafter]
    refine ⟨after, rfl, hkept'.start.trans hkept.start, hkept'.pathStack.trans hkept.pathStack, ?_,
      hkept'.keyStack.trans hkept.keyStack, hkept'.typeStack.trans hkept.typeStack, ?_, ?_⟩
    · rw [hkept'.indexStack, List.length_cons]
      show (i + 1 + items.length) :: indices = _
      rw [Nat.add_assoc, Nat.add_comm 1]
    · rw [hkept'.indexString, hkept.indexString, indexedItems]
    · rw [hkept'.calls, hkept.indexString, askedItems]
      show middle.calls ++ _ = _
      rw [hkept.calls, List.append_assoc]

/-- The members of an object. -/
theorem run_members (userId : BString) :
    ∀ (members : List (List BString × JSONValue)) (parser : JSONPathParser) (path : Place)
    {paths : List Place} {types : List JSONType}, parser.pathStack = path :: paths →
    parser.typeStack = .object :: types →
    ∃ after, run userId parser (memberEvents members) = some after ∧
      Kept parser after (askedMembers (stackName userId) keyValue path parser.indexString members)
        (indexedMembers parser.indexString members)
  | [], parser, path, paths, types, _, _ => by
    refine ⟨parser, rfl, rfl, rfl, rfl, rfl, rfl, by rw [indexedMembers], ?_⟩
    rw [askedMembers]
    exact (List.append_nil _).symm
  | (key, value) :: members, parser, path, paths, types, hpath, htype => by
    obtain ⟨middle, hmiddle, hkept⟩ := run_member (fills userId value) key hpath htype
    obtain ⟨after, hafter, hkept'⟩ :=
      run_members userId members middle path (hkept.pathStack.trans hpath)
      (hkept.typeStack.trans htype)
    have hevents : memberEvents ((key, value) :: members) =
        (.onobjectkey (keyValue key) :: (value.body ++ [.onvalue value.type value.text,
          .onobjectvalue (keyValue key) value.type value.text])) ++ memberEvents members := by
      rw [memberEvents]
      simp
    rw [hevents, run_append, hmiddle, Option.bind_some, hafter]
    refine ⟨after, rfl, hkept'.start.trans hkept.start, hkept'.pathStack.trans hkept.pathStack,
      hkept'.indexStack.trans hkept.indexStack, hkept'.keyStack.trans hkept.keyStack,
      hkept'.typeStack.trans hkept.typeStack, ?_, ?_⟩
    · rw [hkept'.indexString, hkept.indexString, indexedMembers]
    · rw [hkept'.calls, hkept.indexString, hkept.calls, askedMembers, List.append_assoc]

end

/-- The calls for an object that is a whole text. -/
theorem run_object (userId : BString) (members : List (List BString × JSONValue)) (start : Place) :
    ∃ parser, run userId (new start) (JSONValue.object members).events = some parser ∧
      parser.calls = asked (stackName userId) keyValue start true (.object members) ++
        [.setObject start] := by
  obtain ⟨after, hrun, hkept⟩ := fills userId (.object members) rfl nofun (new start)
    (new start) start rfl
  have hend : run userId after [.onvalue .object []] = some (after.ask (.setObject start)) := by
    simp [run, step, onvalue, hkept.pathStack, hkept.start, new, setVariable]
  refine ⟨after.ask (.setObject start), ?_, ?_⟩
  · rw [events, run_append, hrun]
    exact hend
  · rw [ask, hkept.calls]
    rfl

/-- A key in two parts has the name of the second one. -/
example :
    ∃ parser, run (text "u") (new []) (JSONValue.object [([text "a", text "b"], .null)]).events =
      some parser ∧
    parser.calls = [.setObject [], .property [] (text "b"), .setNull [.string (text "b")],
      .setObject []] :=
  ⟨_, rfl, rfl⟩

end JSONPathParser

end BeeFish
