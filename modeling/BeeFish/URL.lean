/-
# The URL of a node, read back

`JSONPath::toString` writes the way to a node as a URL: the origin, `my` for the
user and the keys, those of digits in quotes. `JSONPath::fromString` takes a URL
apart (web-request/url.h) and walks down again: the parts are decoded twice,
digits are a position, and quotes are taken off. A key is written as it is, so
one with a mark of a URL in it is read as something else, and a first key can be
read as a user. Where no key is like that the node is found again
(`fromString_toString`).

Key definitions: `URL.read`, `URL.paths`, `JSONTree`, `fromString`, `Readable`.
-/
import BeeFish.Printed
import BeeFish.Escape

namespace BeeFish

/-! ### Texts -/

namespace BString

/-- `BString::split` with the segment so far. -/
def splitFrom (character : UInt8) (segment : BString) : BString → List BString
  | [] => [segment]
  | c :: s =>
    if c = character then segment :: splitFrom character [] s
    else splitFrom character (segment ++ [c]) s

def split (s : BString) (character : UInt8) : List BString := splitFrom character [] s

/-- `BString::decodeURI`, with the bytes to skip and the number that `sscanf`
writes to, which it leaves as it is where it reads none. -/
def decodeFrom (sscanf : BString → Option ℕ) : ℕ → ℕ → BString → BString
  | _, _, [] => []
  | skip + 1, ii, _ :: s => decodeFrom sscanf skip ii s
  | 0, ii, c :: s =>
    if c ≠ 37 then c :: decodeFrom sscanf 0 ii s
    else
      let ii := (sscanf (s.take 2)).getD ii
      UInt8.ofNat ii :: decodeFrom sscanf 2 ii s

/-- `atol` of digits -/
def atol (s : BString) : ℕ := s.foldl (fun n c => n * 10 + (c.toNat - 48)) 0

def isDigit (c : UInt8) : Bool := 48 ≤ c && c ≤ 57

/-- `std::stol` to an index; none where it throws. -/
def stol (s : BString) : Option ℕ :=
  let s := s.dropWhile fun c => c = 32 || 9 ≤ c && c ≤ 13
  let (negative, s) := match s with
    | 45 :: s => (true, s)
    | 43 :: s => (false, s)
    | s => (false, s)
  let digits := s.takeWhile isDigit
  if digits = [] then none
  else if negative then if atol digits ≤ 2 ^ 63 then some ((2 ^ 64 - atol digits) % 2 ^ 64)
    else none
  else if atol digits < 2 ^ 63 then some (atol digits) else none

end BString

section

variable (sscanf : BString → Option ℕ) (ii : ℕ)

/-- `BString::decodeURI`; `ii` is what the variable holds that is not set. -/
def BString.decodeURI (s : BString) : BString := BString.decodeFrom sscanf 0 ii s

/-! ### URLs -/

/-- `URL`, with the texts that its parts capture. -/
structure URL where
  protocol : BString
  domain : BString
  port : BString
  pathValue : BString
  search : List (BString × BString)

namespace URL

/-- `DomainCharacter` -/
def domainCharacter (c : UInt8) : Bool := c ≠ 32 && c ≠ 47 && c ≠ 63 && c ≠ 58

/-- `PathCharacter` -/
def pathCharacter (c : UInt8) : Bool := c ≠ 32 && c ≠ 63

/-- `KeyCharacter` -/
def keyCharacter (c : UInt8) : Bool := c ≠ 61 && c ≠ 38 && c ≠ 32

/-- `ValueCharacter` -/
def valueCharacter (c : UInt8) : Bool := c ≠ 38 && c ≠ 32

/-- An optional character. -/
def skip (character : UInt8) : BString → BString
  | c :: s => if c = character then s else c :: s
  | [] => []

/-- `KeyValues`: the pairs, decoded. -/
def keyValues : ℕ → BString → List (BString × BString)
  | 0, _ => []
  | fuel + 1, s =>
    let key := s.takeWhile keyCharacter
    if key = [] then []
    else
      let s := skip 61 (s.dropWhile keyCharacter)
      let value := s.takeWhile valueCharacter
      (BString.decodeURI sscanf ii key, BString.decodeURI sscanf ii value) ::
        keyValues fuel (skip 38 (s.dropWhile valueCharacter))

/-- `Protocol`, in any letter case. -/
def protocolOf (s : BString) : Option BString :=
  let lower := fun s : BString => s.map fun c => if 65 ≤ c ∧ c ≤ 90 then c + 32 else c
  if lower (s.take 5) = text "https" then some (s.take 5)
  else if lower (s.take 4) = text "http" then some (s.take 4)
  else none

/-- `Port`, where there is one, and what comes after it. -/
def portOf : BString → BString × BString
  | 58 :: s => (s.takeWhile BString.isDigit, s.dropWhile BString.isDigit)
  | s => ([], s)

/-- `Search`, where there is one. -/
def searchOf : BString → List (BString × BString)
  | 63 :: s => keyValues sscanf ii (s.length + 1) s
  | _ => []

/-- `URL::URL` of a text with a protocol and a domain; none for any other. -/
def read (s : BString) : Option URL := do
  let protocol ← protocolOf s
  let s := s.drop protocol.length
  if (text "://").isPrefixOf s then
    let s := s.drop 3
    let domain := s.takeWhile domainCharacter
    let s := s.dropWhile domainCharacter
    if domain = [] then none
    else
      let (port, s) := portOf s
      return ⟨protocol, domain, port, s.takeWhile pathCharacter,
        searchOf sscanf ii (s.dropWhile pathCharacter)⟩
  else none

/-- `URL::port` -/
def portValue (url : URL) : BString :=
  if url.protocol = text "https" ∧ url.port ≠ text "443" then url.port
  else if url.protocol = text "http" ∧ url.port ≠ text "80" then url.port
  else []

/-- `URL::origin` -/
def origin (url : URL) : BString :=
  url.protocol ++ text "://" ++ url.domain ++
    (if url.portValue.length ≠ 0 then text ":" ++ url.portValue else [])

/-- `URL::path` -/
def path (url : URL) : BString := if url.pathValue.length > 1 then url.pathValue else text "/"

/-- `URL::paths` -/
def paths (url : URL) : List BString :=
  let path := url.path.drop 1
  let path := if path.getLast? = some 47 then path.dropLast else path
  if path = [] then [] else (BString.split path 47).map (BString.decodeURI sscanf ii)

/-- The value of a key of `Search`, the last one of that key. -/
def searchValue (url : URL) (key : BString) : Option BString :=
  ((url.search.filter fun pair => pair.1 = key).getLast?).map Prod.snd

end URL

/-! ### Reading a URL -/

/-- The JSON nodes of a database, by their indexes. -/
structure JSONTree where
  /-- `JSONDatabase::json` -/
  json : ℕ
  users : BString → Bool
  /-- The node of a property that an object contains. -/
  property : ℕ → BString → Option ℕ
  /-- The node at a position of an array or an object. -/
  child : ℕ → ℕ → Option ℕ
  /-- The node that `operator []` makes for a property. -/
  created : ℕ → BString → ℕ
  /-- The way up from a node. -/
  path : ℕ → JSONPath

namespace JSONTree

variable (T : JSONTree)

/-- `JSONPath::operator []` of a property. -/
def get (node : ℕ) (key : BString) : ℕ := (T.property node key).getD (T.created node key)

/-- The quotes are taken off. -/
def unquote (key : BString) : BString :=
  if key.head? = some 34 ∧ key.getLast? = some 34 ∧ key.length > 1 then key.tail.dropLast else key

/-- A key of the loop of `fromString`; none where the path is not found. -/
def step (method : BString) (node : ℕ) (key : BString) : Option ℕ :=
  if key.isDigitsOnly then T.child node (BString.atol key)
  else
    let key := unquote key
    if (T.property node key).isSome ∨ method = text "POST" then some (T.get node key) else none

variable (L : Locale)

/-- `JSONPath::fromString`; none for an exception. -/
def fromString (auth : Authentication) (url : BString) (method : BString) : Option ℕ := do
  let url ← URL.read sscanf ii url
  match url.searchValue (text "index") with
  | some (c :: value) =>
    let index ← BString.stol (c :: value)
    let compareURL ← URL.read sscanf ii ((T.path index).toString auth T.users)
    if L.toLower compareURL.path = L.toLower url.path then some index else none
  | _ =>
    let originPath := T.get T.json url.origin
    match (url.paths sscanf ii).map (BString.decodeURI sscanf ii) with
    | [] => some (T.get originPath (text "public"))
    | key :: paths =>
      if key = text "my" ∨ key = auth.userId then
        paths.foldlM (T.step method) (T.get originPath auth.userId)
      else if T.users key then none
      else (key :: paths).foldlM (T.step method) (T.get originPath (text "public"))

/-- The node that a key leads to. -/
def below (node : ℕ) : Component → Option ℕ
  | .integer position => T.child node position
  | .string property => T.property node property

/-- The way is one of live nodes. -/
def Live : List (Component × ℕ) → Prop
  | [] => True
  | (key, index) :: steps => T.below (JSONPath.indexOf T.json steps) key = some index ∧ Live steps

end JSONTree

end

/-! ### Segments -/

namespace BString

theorem splitFrom_slash {s : BString} (hs : 47 ∉ s) (t : BString) : ∀ segment : BString,
    splitFrom 47 segment (s ++ 47 :: t) = (segment ++ s) :: splitFrom 47 [] t := by
  induction s with
  | nil => simp [splitFrom]
  | cons c s ih =>
    intro segment
    have hc : c ≠ 47 := fun h => hs (h ▸ List.mem_cons_self)
    rw [List.cons_append, splitFrom, if_neg hc, ih fun h => hs (List.mem_cons_of_mem _ h)]
    simp

theorem splitFrom_end {s : BString} (hs : 47 ∉ s) :
    ∀ segment : BString, splitFrom 47 segment s = [segment ++ s] := by
  induction s with
  | nil => simp [splitFrom]
  | cons c s ih =>
    intro segment
    have hc : c ≠ 47 := fun h => hs (h ▸ List.mem_cons_self)
    rw [splitFrom, if_neg hc, ih fun h => hs (List.mem_cons_of_mem _ h)]
    simp

/-- Segments with a slash after each. -/
def join (segments : List BString) : BString := segments.flatMap (· ++ text "/")

theorem join_ne_nil {segments : List BString} (h : segments ≠ []) : join segments ≠ [] := by
  obtain ⟨segment, segments, rfl⟩ := List.exists_cons_of_ne_nil h
  simp [join, text]

theorem dropLast_join_cons (segment : BString) {segments : List BString} (h : segments ≠ []) :
    (join (segment :: segments)).dropLast = segment ++ 47 :: (join segments).dropLast := by
  rw [join, List.flatMap_cons, ← join, List.dropLast_append_of_ne_nil (join_ne_nil h),
    List.append_assoc]
  rfl

theorem dropLast_join_single (segment : BString) : (join [segment]).dropLast = segment := by
  rw [join, List.flatMap_singleton, show text "/" = [47] by decide, List.dropLast_concat]

theorem split_join : ∀ {segments : List BString}, segments ≠ [] → (∀ s ∈ segments, 47 ∉ s) →
    split (join segments).dropLast 47 = segments
  | [segment], _, h => by
    rw [dropLast_join_single, split, splitFrom_end (h segment List.mem_cons_self)]
    rfl
  | segment :: next :: segments, _, h => by
    have ih := split_join (List.cons_ne_nil next segments) fun s hs =>
      h s (List.mem_cons_of_mem _ hs)
    rw [dropLast_join_cons _ (List.cons_ne_nil _ _), split,
      splitFrom_slash (h segment List.mem_cons_self)]
    exact congrArg (segment :: ·) ih

/-- The last byte is that of the last segment. -/
theorem getLast?_join : ∀ {segments : List BString}, segments ≠ [] →
    (∀ s ∈ segments, s ≠ [] ∧ 47 ∉ s) →
    (join segments).dropLast ≠ [] ∧ (join segments).dropLast.getLast? ≠ some 47
  | [segment], _, h => by
    obtain ⟨hne, hslash⟩ := h segment List.mem_cons_self
    rw [dropLast_join_single]
    exact ⟨hne, fun hlast => hslash (List.mem_of_getLast? hlast)⟩
  | segment :: next :: segments, _, h => by
    obtain ⟨hne, hlast⟩ := getLast?_join (List.cons_ne_nil next segments) fun s hs =>
      h s (List.mem_cons_of_mem _ hs)
    rw [dropLast_join_cons _ (List.cons_ne_nil _ _)]
    refine ⟨by simp, ?_⟩
    rwa [List.getLast?_append_of_ne_nil _ (List.cons_ne_nil _ _), List.getLast?_cons_of_ne_nil hne]

/-- A text without percent signs stays as it is. -/
theorem decodeURI_eq {sscanf : BString → Option ℕ} {ii : ℕ} {s : BString} (h : 37 ∉ s) :
    decodeURI sscanf ii s = s := by
  unfold decodeURI
  induction s with
  | nil => rfl
  | cons c s ih =>
    have hc : c ≠ 37 := fun hc => h (hc ▸ List.mem_cons_self)
    rw [decodeFrom, if_pos hc, ih fun hs => h (List.mem_cons_of_mem _ hs)]

/-! ### Digits -/

theorem digit_bounds {c : Char} (h : c.isDigit) : 48 ≤ c.toNat ∧ c.toNat ≤ 57 :=
  Char.isDigit_iff_toNat.mp h

theorem isDigit_digits {n : ℕ} : ∀ c ∈ Nat.toDigits 10 n, c.isDigit := fun _ hc =>
  Nat.isDigit_of_mem_toDigits (by decide) (by decide) hc

theorem text_nat (n : ℕ) : text (toString n) = (Nat.toDigits 10 n).map fun c =>
    UInt8.ofNat c.toNat := by
  rw [text, Nat.toString_eq_ofList_toDigits, String.toList_ofList]

theorem atol_text (n : ℕ) : atol (text (toString n)) = n := by
  have hfold : ∀ (cs : List Char) (m : ℕ), (∀ c ∈ cs, c.isDigit) →
      (cs.map fun c => UInt8.ofNat c.toNat).foldl (fun n c => n * 10 + (c.toNat - 48)) m =
        Nat.ofDigitChars 10 cs m := by
    intro cs
    induction cs with
    | nil => simp
    | cons c cs ih =>
      intro m h
      have hc := h c List.mem_cons_self
      have hlt : c.toNat < 256 := Nat.lt_of_le_of_lt (digit_bounds hc).2 (by decide)
      rw [List.map_cons, List.foldl_cons, ih _ fun d hd => h d (List.mem_cons_of_mem _ hd),
        Nat.ofDigitChars_cons,
        UInt8.toNat_ofNat_of_lt' hlt, Nat.mul_comm]
      rfl
  rw [atol, text_nat, hfold _ _ isDigit_digits, Nat.ofDigitChars_ten_toDigits]

theorem isDigitsOnly_iff {s : BString} : s.isDigitsOnly ↔ s ≠ [] ∧ ∀ c ∈ s, 48 ≤ c ∧ c ≤ 57 := by
  simp [isDigitsOnly]

theorem isDigitsOnly_text (n : ℕ) : isDigitsOnly (text (toString n)) = true := by
  have hall : ∀ c ∈ text (toString n), 48 ≤ c ∧ c ≤ 57 := by
    intro c hc
    rw [text_nat, List.mem_map] at hc
    obtain ⟨d, hd, rfl⟩ := hc
    obtain ⟨hlow, hhigh⟩ := digit_bounds (isDigit_digits d hd)
    rw [UInt8.le_iff_toNat_le, UInt8.le_iff_toNat_le, UInt8.toNat_ofNat_of_lt'
      (Nat.lt_of_le_of_lt hhigh (by decide))]
    exact ⟨hlow, hhigh⟩
  have hne : text (toString n) ≠ [] := by
    rw [text_nat, Ne, List.map_eq_nil_iff]
    exact Nat.toDigits_ne_nil
  exact isDigitsOnly_iff.mpr ⟨hne, hall⟩

end BString

/-! ### Origins -/

namespace URL

/-- An origin as `URL::origin` writes it. -/
def IsOrigin (origin : BString) : Prop :=
  ∃ url : URL, protocolOf (url.protocol ++ text "://") = some url.protocol ∧ url.domain ≠ [] ∧
    (∀ c ∈ url.domain, domainCharacter c) ∧ (∀ c ∈ url.port, BString.isDigit c) ∧
      origin = url.origin

variable {sscanf : BString → Option ℕ} {ii : ℕ}

theorem takeWhile_stop {α : Type} {p : α → Bool} {s t : List α} (hs : ∀ c ∈ s, p c)
    (ht : ∀ c ∈ t.head?, p c = false) :
    (s ++ t).takeWhile p = s ∧ (s ++ t).dropWhile p = t := by
  rw [List.takeWhile_append_of_pos hs, List.dropWhile_append_of_pos hs]
  cases t with
  | nil => simp
  | cons c t =>
    have hc := ht c rfl
    simp [hc]

theorem protocolOf_eq {s protocol : BString} (h : protocolOf s = some protocol) :
    protocol = s.take 5 ∨ protocol = s.take 4 := by
  simp only [protocolOf] at h
  split_ifs at h
  · exact Or.inl (Option.some.inj h).symm
  · exact Or.inr (Option.some.inj h).symm

theorem protocolOf_congr {s : BString} (h : 5 ≤ s.length) (t : BString) :
    protocolOf (s ++ t) = protocolOf s := by
  rw [protocolOf, protocolOf, List.take_append_of_le_length h, List.take_append_of_le_length
    (Nat.le_of_succ_le h)]

theorem length_protocol {protocol t : BString}
    (h : protocolOf (protocol ++ text "://" ++ t) = some protocol) :
    5 ≤ (protocol ++ text "://").length := by
  have hmark : (text "://").length = 3 := rfl
  rw [List.length_append, hmark]
  rcases protocolOf_eq h with heq | heq
  all_goals
    have := congrArg List.length heq
    rw [List.length_take, List.length_append, List.length_append, hmark] at this
    omega

theorem protocolOf_append {protocol t : BString}
    (h : protocolOf (protocol ++ text "://") = some protocol) :
    protocolOf (protocol ++ text "://" ++ t) = some protocol := by
  rw [protocolOf_congr (length_protocol (t := []) (by rwa [List.append_nil])), h]

theorem portValue_portValue (url : URL) (pathValue : BString) (search : List (BString × BString)) :
    portValue ⟨url.protocol, url.domain, url.portValue, pathValue, search⟩ = url.portValue := by
  unfold portValue
  split_ifs <;> simp_all

/-- A URL by its parts. -/
theorem read_parts {protocol domain s : BString}
    (hprotocol : protocolOf (protocol ++ text "://") = some protocol)
    (hne : domain ≠ []) (hdomain : ∀ c ∈ domain, domainCharacter c)
    (hs : ∀ c ∈ s.head?, domainCharacter c = false) :
    read sscanf ii (protocol ++ text "://" ++ (domain ++ s)) =
      some ⟨protocol, domain, (portOf s).1, (portOf s).2.takeWhile pathCharacter,
        searchOf sscanf ii ((portOf s).2.dropWhile pathCharacter)⟩ := by
  obtain ⟨htake, hdrop⟩ := takeWhile_stop hdomain hs
  have hmark : (text "://").isPrefixOf (text "://" ++ (domain ++ s)) :=
    List.isPrefixOf_iff_prefix.mpr (List.prefix_append _ _)
  have hthree : (text "://" ++ (domain ++ s)).drop 3 = domain ++ s := rfl
  rw [read, protocolOf_append hprotocol]
  simp only [Option.bind_eq_bind, Option.bind_some]
  rw [List.append_assoc, List.drop_left, if_pos hmark, hthree]
  simp only [htake, hdrop, if_neg hne]
  rfl

/-- The port that is written is read. -/
theorem portOf_portValue (url : URL) (hport : ∀ c ∈ url.port, BString.isDigit c) {rest : BString}
    (hrest : ∀ c ∈ rest.head?, c = 47) :
    portOf ((if url.portValue.length ≠ 0 then text ":" ++ url.portValue else []) ++ rest) =
      (url.portValue, rest) ∧
      ∀ c ∈ ((if url.portValue.length ≠ 0 then text ":" ++ url.portValue else []) ++ rest).head?,
        domainCharacter c = false := by
  have hdigits : ∀ c ∈ url.portValue, BString.isDigit c := by
    unfold portValue
    split_ifs
    · exact hport
    · exact hport
    · exact nofun
  by_cases hnone : url.portValue = []
  · rw [hnone, if_neg (by simp), List.nil_append]
    cases rest with
    | nil => exact ⟨rfl, nofun⟩
    | cons c rest =>
      have hc : c = 47 := hrest c rfl
      subst hc
      refine ⟨rfl, fun d hd => ?_⟩
      rw [← Option.some.inj hd]
      decide
  · have hstop : ∀ c ∈ rest.head?, BString.isDigit c = false := fun c hc => by
      rw [hrest c hc]
      decide
    obtain ⟨htake, hdrop⟩ := takeWhile_stop hdigits hstop
    rw [if_pos (by simpa using hnone), show text ":" = [58] by decide]
    refine ⟨?_, fun d hd => ?_⟩
    · rw [List.cons_append, List.nil_append, List.cons_append, portOf, htake, hdrop]
    · rw [← Option.some.inj hd]
      decide

/-- The URL of an origin and a path. -/
theorem read_origin {origin rest : BString} (h : IsOrigin origin)
    (hpath : ∀ c ∈ rest, pathCharacter c)
    (hrest : ∀ c ∈ rest.head?, c = 47) :
    ∃ url : URL, read sscanf ii (origin ++ rest) = some url ∧ url.origin = origin ∧
      url.pathValue = rest ∧ url.search = [] := by
  obtain ⟨url, hprotocol, hdomain, hdomains, hport, rfl⟩ := h
  refine ⟨⟨url.protocol, url.domain, url.portValue, rest, []⟩, ?_, ?_, rfl, rfl⟩
  · have htake : rest.takeWhile pathCharacter = rest ∧ rest.dropWhile pathCharacter = [] := by
      simpa using takeWhile_stop (t := []) hpath (by simp)
    have hparts := portOf_portValue url hport hrest
    rw [origin, List.append_assoc, List.append_assoc (url.protocol ++ text "://"),
      read_parts hprotocol hdomain hdomains hparts.2, hparts.1, htake.1, htake.2]
    rfl
  · unfold origin
    rw [portValue_portValue]

theorem isDigit_portOf {s : BString} : ∀ c ∈ (portOf s).1, BString.isDigit c := by
  unfold portOf
  split
  · exact fun c hc => List.all_eq_true.mp (List.all_takeWhile (p := BString.isDigit)) c hc
  · exact nofun

/-- What `URL::origin` writes is an origin. -/
theorem isOrigin_origin {s : BString} {url : URL} (h : read sscanf ii s = some url) :
    IsOrigin url.origin := by
  unfold read at h
  obtain ⟨protocol, hprotocol, h⟩ := Option.bind_eq_some_iff.mp h
  have hpre : protocol <+: s := by
    rcases protocolOf_eq hprotocol with rfl | rfl <;> exact List.take_prefix _ _
  obtain ⟨t, rfl⟩ := hpre
  rw [List.drop_left] at h
  simp only at h
  split_ifs at h with hmark hdomain
  obtain ⟨t, rfl⟩ := List.isPrefixOf_iff_prefix.mp hmark
  rw [← List.append_assoc] at hprotocol
  rw [← Option.some.inj h]
  refine ⟨_, ?_, hdomain, fun c hc =>
    List.all_eq_true.mp (List.all_takeWhile (p := domainCharacter)) c hc, isDigit_portOf, rfl⟩
  rw [← protocolOf_congr (length_protocol hprotocol), hprotocol]

end URL

/-! ### Keys that are read back -/

/-- A key of whole characters without a mark of a URL, without `{HTTP}` and not
in quotes. -/
structure Readable (key : BString) : Prop where
  ne_nil : key ≠ []
  marks : ∀ c ∈ key, c ≠ 47 ∧ c ≠ 63 ∧ c ≠ 32 ∧ c ≠ 37
  http : BString.find (text "{HTTP}") key = none
  quotes : JSONTree.unquote key = key
  whole : Whole key

/-- A component that is read back. -/
def Component.Readable : Component → Prop
  | .integer _ => True
  | .string key => BeeFish.Readable key

/-- The segments of a way down. -/
def segments (below : List (Component × ℕ)) : List BString :=
  below.reverse.map fun s => shownKey s.1

/-- A segment is not empty and has no mark of a URL. -/
structure IsSegment (segment : BString) : Prop where
  ne_nil : segment ≠ []
  marks : ∀ c ∈ segment, c ≠ 47 ∧ c ≠ 63 ∧ c ≠ 32 ∧ c ≠ 37
  http : BString.find (text "{HTTP}") segment = none

theorem marks_of_digits {s : BString} (h : s.isDigitsOnly) : ∀ c ∈ s, c ≠ 47 ∧ c ≠ 63 ∧ c ≠ 32 ∧
    c ≠ 37 ∧ c ≠ 34 ∧ c ≠ 123 := by
  intro c hc
  obtain ⟨hlow, hhigh⟩ := (BString.isDigitsOnly_iff.mp h).2 c hc
  refine ⟨?_, ?_, ?_, ?_, ?_, ?_⟩ <;> rintro rfl <;> revert hlow hhigh <;> decide

theorem shownKey_string (key : BString) :
    shownKey (.string key) = if key.isDigitsOnly then text "\"" ++ key ++ text "\"" else key := by
  unfold shownKey
  by_cases hdigits : key.isDigitsOnly
  · have hmy : key ≠ text "my" := by
      rintro rfl
      exact absurd hdigits (by decide)
    simp [Component.text, Component.type, hdigits, hmy]
  · simp [Component.text, hdigits]

theorem shownKey_integer (position : ℕ) :
    shownKey (.integer position) = text (toString position) := by
  simp [shownKey, Component.type, Component.text]

theorem isSegment_shownKey {key : Component} (h : key.Readable) : IsSegment (shownKey key) := by
  have hdigits : ∀ s : BString, s.isDigitsOnly → IsSegment s ∧
    IsSegment (text "\"" ++ s ++ text "\"") := by
    intro s hs
    have hquote : text "\"" = [34] := by decide
    have hmarks : ∀ c ∈ text "\"" ++ s ++ text "\"", c ≠ 47 ∧ c ≠ 63 ∧ c ≠ 32 ∧ c ≠ 37 ∧
      c ≠ 123 := by
      intro c hc
      rw [hquote, List.mem_append, List.mem_append, List.mem_singleton] at hc
      rcases hc with (rfl | hc) | rfl
      · decide
      · obtain ⟨h1, h2, h3, h4, -, h6⟩ := marks_of_digits hs c hc
        exact ⟨h1, h2, h3, h4, h6⟩
      · decide
    have hhttp : ∀ t : BString, 123 ∉ t → BString.find (text "{HTTP}") t = none := fun t ht =>
      (BString.find_eq_none (by decide)).mpr fun hpart => ht (hpart.subset (by decide))
    refine ⟨⟨(BString.isDigitsOnly_iff.mp hs).1, fun c hc => ?_, hhttp _ fun hc => ?_⟩,
      ⟨by simp [hquote], fun c hc => ?_, hhttp _ fun hc => ?_⟩⟩
    · obtain ⟨h1, h2, h3, h4, -⟩ := marks_of_digits hs c hc
      exact ⟨h1, h2, h3, h4⟩
    · exact (marks_of_digits hs 123 hc).2.2.2.2.2 rfl
    · obtain ⟨h1, h2, h3, h4, -⟩ := hmarks c hc
      exact ⟨h1, h2, h3, h4⟩
    · exact (hmarks 123 hc).2.2.2.2 rfl
  cases key with
  | integer position =>
    rw [shownKey_integer]
    exact (hdigits _ (BString.isDigitsOnly_text position)).1
  | string key =>
    rw [shownKey_string]
    split_ifs with hkey
    · exact (hdigits key hkey).2
    · exact ⟨h.ne_nil, h.marks, h.http⟩

namespace JSONTree

variable {T : JSONTree} {method : BString}

/-- A segment leads to the node whose key it shows. -/
theorem step_shownKey {node index : ℕ} {key : Component} (hkey : key.Readable)
    (h : T.below node key = some index) :
    T.step method node (shownKey key) = some index := by
  cases key with
  | integer position =>
    rw [shownKey_integer, step, if_pos (BString.isDigitsOnly_text position), BString.atol_text]
    exact h
  | string key =>
    have hget : T.get node key = index := by
      rw [get, show T.property node key = some index from h]; rfl
    have hfound : (T.property node key).isSome ∨ method = text "POST" :=
      Or.inl (by rw [show T.property node key = some index from h]; rfl)
    rw [shownKey_string]
    split_ifs with hdigits
    · have hquote : text "\"" = [34] := by decide
      have hnot : ¬ BString.isDigitsOnly (text "\"" ++ key ++ text "\"") := fun hall =>
        (marks_of_digits hall 34 (by simp [hquote])).2.2.2.2.1 rfl
      have hunquote : unquote (text "\"" ++ key ++ text "\"") = key := by
        rw [hquote, unquote, if_pos ⟨rfl, List.getLast?_concat, by simp⟩]
        simp
      rw [step, if_neg hnot]
      simp only [hunquote]
      rw [if_pos hfound, hget]
    · rw [step, if_neg hdigits]
      simp only [hkey.quotes]
      rw [if_pos hfound, hget]

theorem live_append {above : List (Component × ℕ)} : ∀ {below : List (Component × ℕ)},
    T.Live (below ++ above) → T.Live above
  | [], h => h
  | _ :: _, h => live_append h.2

theorem foldlM_segments : ∀ {below above : List (Component × ℕ)}, T.Live (below ++ above) →
    (∀ s ∈ below, s.1.Readable) →
    (segments below).foldlM (T.step method) (JSONPath.indexOf T.json above) =
      some (JSONPath.indexOf T.json (below ++ above))
  | [], _, _, _ => rfl
  | (key, index) :: below, above, ⟨hkey, hlive⟩, h => by
    have ih := foldlM_segments hlive fun s hs => h s (List.mem_cons_of_mem _ hs)
    rw [segments, List.reverse_cons, List.map_append, List.foldlM_append, ← segments, ih]
    have hstep :
        T.step method (JSONPath.indexOf T.json (below ++ above)) (shownKey key) = some index :=
      step_shownKey (h _ List.mem_cons_self) hkey
    simpa [JSONPath.indexOf] using hstep

end JSONTree

/-! ### The URL of a node -/

/-- The segments of the URL of a node below a user. -/
def userSegments (user : BString) (below : List (Component × ℕ)) : List BString :=
  if user = text "public" then segments below else text "my" :: segments below

variable {userId origin user : BString} {users : BString → Bool} {o u : ℕ}
    {below : List (Component × ℕ)}

theorem urlFrom_below (huser : user = text "public" ∨ user = userId) :
    ∀ (below : List (Component × ℕ)) (string : BString),
    urlFrom userId users (below ++ [(.string user, u), (.string origin, o)]) string =
      some (origin ++ text "/" ++ (BString.join (userSegments user below) ++ string))
  | [], string => by
    rw [List.nil_append, urlFrom_cons]
    by_cases hpublic : user = text "public"
    · simp [userSegments, segments, hpublic, Component.text, urlFrom, BString.join]
    · have hown : user = userId := huser.resolve_left hpublic
      simp [userSegments, segments, hpublic, ← hown, Component.text, urlFrom, BString.join]
  | (key, index) :: below, string => by
    have hjoin : BString.join (userSegments user ((key, index) :: below)) =
        BString.join (userSegments user below) ++ (shownKey key ++ text "/") := by
      unfold userSegments
      split_ifs <;> simp [segments, BString.join]
    obtain ⟨s, t, path, hpath⟩ : ∃ s t path,
      below ++ [(Component.string user, u), (.string origin, o)] = s :: t :: path := by
      rcases below with _ | ⟨s, _ | ⟨t, below⟩⟩
      · exact ⟨_, _, _, rfl⟩
      · exact ⟨_, _, _, rfl⟩
      · exact ⟨_, _, _, rfl⟩
    have ih := urlFrom_below huser below (shownKey key ++ text "/" ++ string)
    rw [hpath] at ih
    rw [List.cons_append, hpath, urlFrom_cons, if_neg (by simp), if_neg (by simp),
      if_neg (by simp), ih, hjoin]
    simp

theorem isSegment_userSegments (h : ∀ s ∈ below, s.1.Readable) : ∀ s ∈ userSegments user below,
    IsSegment s := by
  have hbelow : ∀ s ∈ segments below, IsSegment s := by
    intro s hs
    obtain ⟨t, ht, rfl⟩ := List.mem_map.mp hs
    exact isSegment_shownKey (h t (List.mem_reverse.mp ht))
  unfold userSegments
  split_ifs
  · exact hbelow
  · intro s hs
    rcases List.mem_cons.mp hs with rfl | hs
    · exact ⟨by decide +kernel, by decide +kernel, by decide +kernel⟩
    · exact hbelow s hs

theorem clear_join :
    ∀ {segments : List BString}, (∀ s ∈ segments, BString.find (text "{HTTP}") s = none) →
      Clear (BString.join segments)
  | [], _ => clear_nil
  | s :: segments, h => by
    rw [BString.join, List.flatMap_cons, ← BString.join]
    exact (clear_slash (h s List.mem_cons_self)).append (clear_join fun t ht =>
      h t (List.mem_cons_of_mem _ ht))

/-- The text of the URL. -/
theorem toString_below {auth : Authentication} {path : JSONPath}
    (hsteps : path.steps = below ++ [(.string user, u), (.string origin, o)])
    (huser : user = text "public" ∨ user = auth.userId)
    (horigin : BString.find (text "{HTTP}") origin = none) (h : ∀ s ∈ below, s.1.Readable) :
    path.toString auth users =
      origin ++ if userSegments user below = [] then []
        else text "/" ++ (BString.join (userSegments user below)).dropLast := by
  have hclear : Clear (origin ++ text "/" ++ (BString.join (userSegments user below) ++ [])) := by
    rw [List.append_nil]
    exact (clear_slash horigin).append (clear_join fun s hs => (isSegment_userSegments h s hs).http)
  have hdrop : (origin ++ text "/" ++ (BString.join (userSegments user below) ++ [])).dropLast =
      origin ++ if userSegments user below = [] then []
        else text "/" ++ (BString.join (userSegments user below)).dropLast := by
    split_ifs with hnil
    · rw [hnil, List.append_nil, show BString.join [] = [] from rfl, List.append_nil,
        show text "/" = [47] by decide,
        List.dropLast_concat, List.append_nil]
    · rw [List.append_nil, List.dropLast_append_of_ne_nil (BString.join_ne_nil hnil),
        List.append_assoc]
  unfold JSONPath.toString
  have hfind := hclear.find_dropLast
  rw [hdrop] at hfind
  rw [hsteps, urlFrom_below huser]
  simp only [hdrop, hfind]

theorem decode_segments {sscanf : BString → Option ℕ} {ii : ℕ} {segments : List BString}
    (h : ∀ s ∈ segments, IsSegment s) :
    segments.map (BString.decodeURI sscanf ii) = segments := by
  have heq : ∀ s ∈ segments, BString.decodeURI sscanf ii s = id s := fun s hs =>
    BString.decodeURI_eq fun hc => ((h s hs).marks 37 hc).2.2.2 rfl
  rw [List.map_congr_left heq, List.map_id]

theorem pathCharacter_join {segments : List BString} (h : ∀ s ∈ segments, IsSegment s) :
    ∀ c ∈ text "/" ++ (BString.join segments).dropLast, URL.pathCharacter c := by
  intro c hc
  have hslash : ∀ c ∈ text "/", URL.pathCharacter c := by decide +kernel
  rcases List.mem_append.mp hc with hc | hc
  · exact hslash c hc
  · obtain ⟨s, hs, hc⟩ := List.mem_flatMap.mp (List.mem_of_mem_dropLast hc)
    rcases List.mem_append.mp hc with hc | hc
    · obtain ⟨-, h63, h32, -⟩ := (h s hs).marks c hc
      simp [URL.pathCharacter, h63, h32]
    · exact hslash c hc

/-- The paths of the URL are the segments. -/
theorem paths_segments {sscanf : BString → Option ℕ} {ii : ℕ} {url : URL} {segments : List BString}
    (h : ∀ s ∈ segments, IsSegment s)
    (hurl : url.pathValue = if segments = [] then []
      else text "/" ++ (BString.join segments).dropLast) :
    url.paths sscanf ii = segments := by
  by_cases hnil : segments = []
  · rw [if_pos hnil] at hurl
    rw [hnil]
    simp [URL.paths, URL.path, hurl, text]
  · rw [if_neg hnil, show text "/" = [47] by decide] at hurl
    obtain ⟨hne, hlast⟩ := BString.getLast?_join hnil fun s hs =>
      ⟨(h s hs).ne_nil, fun hc => ((h s hs).marks 47 hc).1 rfl⟩
    have hlong : url.pathValue.length > 1 := by
      have := List.length_pos_iff.mpr hne
      rw [hurl]
      simpa using this
    have hpath : url.path.drop 1 = (BString.join segments).dropLast := by
      rw [URL.path, if_pos hlong, hurl]
      rfl
    unfold URL.paths
    simp only [hpath, if_neg hlast, if_neg hne]
    rw [BString.split_join hnil fun s hs hc => ((h s hs).marks 47 hc).1 rfl, decode_segments h]

namespace JSONTree

variable {T : JSONTree} {L : Locale} {method : BString} {sscanf : BString → Option ℕ} {ii : ℕ}
    {auth : Authentication}

/-- **The URL of a node leads back to it**, from below an origin and its public
part or the part of the user who is logged on, where each key is read back and
the first one below the public part is not read as a user. -/
theorem fromString_toString {path : JSONPath} (hroot : path.root = T.json)
    (hsteps : path.steps = below ++ [(.string user, u), (.string origin, o)])
    (hlive : T.Live path.steps)
    (hisOrigin : URL.IsOrigin origin) (horigin : BString.find (text "{HTTP}") origin = none)
    (huser : user = text "public" ∨ user = auth.userId) (hkeys : ∀ s ∈ below, s.1.Readable)
    (hfirst : user = text "public" → ∀ s ∈ below.getLast?,
      shownKey s.1 ≠ text "my" ∧ shownKey s.1 ≠ auth.userId ∧ T.users (shownKey s.1) = false) :
    T.fromString sscanf ii L auth (path.toString auth T.users) method = some path.index := by
  have hsegments : ∀ s ∈ userSegments user below, IsSegment s := isSegment_userSegments hkeys
  obtain ⟨url, hread, hurl, hpath, hsearch⟩ : ∃ url : URL,
    URL.read sscanf ii (path.toString auth T.users) = some url ∧
      url.origin = origin ∧ url.pathValue = (if userSegments user below = [] then [] else
        text "/" ++ (BString.join (userSegments user below)).dropLast) ∧ url.search = [] := by
    rw [toString_below hsteps huser horigin hkeys]
    refine URL.read_origin hisOrigin ?_ ?_
    · split_ifs
      · exact nofun
      · exact pathCharacter_join hsegments
    · split_ifs
      · exact nofun
      · exact fun c hc => (Option.some.inj hc).symm
  have hpaths :
      (url.paths sscanf ii).map (BString.decodeURI sscanf ii) = userSegments user below := by
    rw [paths_segments hsegments hpath, decode_segments hsegments]
  have hindex : path.index = JSONPath.indexOf T.json
    (below ++ [(.string user, u), (.string origin, o)]) := by
    rw [JSONPath.index, hroot, hsteps]
  rw [hsteps] at hlive
  obtain ⟨huserLive, horiginLive, -⟩ := live_append hlive
  have hgetOrigin : T.get T.json origin = o := by
    rw [get, show T.property T.json origin = some o from horiginLive]; rfl
  have hgetUser : T.get o user = u := by
    rw [get, show T.property o user = some u from huserLive]; rfl
  have hfold : (segments below).foldlM (T.step method)
    (JSONPath.indexOf T.json [(.string user, u), (.string origin, o)]) =
      some (JSONPath.indexOf T.json (below ++ [(.string user, u), (.string origin, o)])) :=
        foldlM_segments hlive hkeys
  unfold fromString
  rw [hread]
  simp only [Option.bind_eq_bind, Option.bind_some, URL.searchValue, hsearch, List.filter_nil,
    List.getLast?_nil, Option.map_none,
    hurl, hpaths, hgetOrigin]
  rw [hindex, ← hfold, JSONPath.indexOf]
  by_cases hpublic : user = text "public"
  · rw [userSegments, if_pos hpublic, ← hpublic, hgetUser]
    cases hs : segments below with
    | nil => rfl
    | cons key paths =>
      -- the first key is not one of a user
      obtain ⟨s, hlast, rfl⟩ : ∃ s, below.getLast? = some s ∧ shownKey s.1 = key := by
        have hhead := congrArg List.head? hs
        rw [segments, List.head?_map, List.head?_reverse] at hhead
        obtain ⟨s, hlast, heq⟩ := Option.map_eq_some_iff.mp hhead
        exact ⟨s, hlast, heq⟩
      obtain ⟨hmy, hown, hother⟩ := hfirst hpublic s hlast
      simp [hmy, hown, hother]
  · have hown : user = auth.userId := huser.resolve_left hpublic
    rw [userSegments, if_neg hpublic, ← hown, hgetUser]
    simp

/-- One property below the public part of an origin, at position 1. -/
def keyTree (key : BString) : JSONTree where
  json := 0
  users _ := false
  property node property :=
    if node = 0 ∧ property = text "https://o" then some 1
    else if node = 1 ∧ property = text "public" then some 2
    else if node = 2 ∧ property = key then some 3
    else none
  child node position := if node = 2 ∧ position = 1 then some 3 else none
  created node _ := node + 4
  path _ := ⟨[], 0⟩

/-- The node of the property. -/
def keyPath (key : BString) : JSONPath :=
  ⟨[(.string key, 3), (.string (text "public"), 2), (.string (text "https://o"), 1)], 0⟩

theorem isOrigin_o : URL.IsOrigin (text "https://o") :=
  ⟨⟨text "https", text "o", [], [], []⟩, by decide +kernel, by decide +kernel,
    by decide +kernel, by decide +kernel, by decide +kernel⟩

theorem live_keyPath (key : BString) : (keyTree key).Live (keyPath key).steps := by
  refine ⟨?_, ?_, ?_, trivial⟩ <;> simp [keyTree, below, JSONPath.indexOf]

theorem fromString_toString_a :
    (keyTree (text "a")).fromString (fun _ => none) 0 ⟨fun _ => false, fun _ => false, id⟩ ⟨[], []⟩
    ((keyPath (text "a")).toString ⟨[], []⟩ fun _ => false) (text "GET") = some 3 :=
  fromString_toString rfl (show (keyPath (text "a")).steps = [(.string (text "a"), 3)] ++
    [_, _] from rfl) (live_keyPath (text "a")) isOrigin_o (by decide) (Or.inl rfl)
    (fun s hs => by
      rw [List.mem_singleton.mp hs]
      refine ⟨by decide +kernel, by decide +kernel, by decide +kernel, by decide +kernel,
        ⟨[[97]], fun c hc => ?_, by decide +kernel⟩⟩
      rw [List.mem_singleton.mp hc]
      exact Utf8.isChar_ascii (by decide))
    (fun _ s hs => by
      rw [← Option.some.inj hs]
      exact ⟨by decide, by decide, rfl⟩)

/-- The key is read as two. -/
theorem fromString_slash :
    URL.IsOrigin (text "https://o") ∧ (keyTree (text "a/b")).Live (keyPath (text "a/b")).steps ∧
    (keyTree (text "a/b")).fromString
    (fun _ => none) 0 ⟨fun _ => false, fun _ => false, id⟩ ⟨[], []⟩
      ((keyPath (text "a/b")).toString ⟨[], []⟩ fun _ => false) (text "GET") = none :=
  ⟨isOrigin_o, live_keyPath _, by decide⟩

/-- A key with a mark can be read as the position of its node. -/
example :
    (keyTree (text "1/")).fromString (fun _ => none) 0 ⟨fun _ => false, fun _ => false, id⟩ ⟨[], []⟩
    ((keyPath (text "1/")).toString ⟨[], []⟩ fun _ => false) (text "GET") = some 3 := by decide

end JSONTree

end BeeFish
