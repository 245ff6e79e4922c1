import Httpaa.Foundation.Lookup
import Httpaa.Http.ContentRange

/-!
# Cache directives

`http11_header_cache_directive` tries the directives of requests and then those of responses. The
two tables are looked up without going back, so that a name is hidden behind an earlier one that
begins as it does, and a name is found behind letters of an earlier one.
-/

namespace Httpaa

open Recogniser Stringaa

/-! ### The functions of the source -/

inductive CacheRequestDirective
  | noCache | noStore | maxAge | maxStale | minFresh | noTransform | onlyIfCached
  deriving DecidableEq

def http11HeaderCacheRequestDirectiveArray : List (CacheRequestDirective × String) :=
  [(.noCache, "no-cache"), (.noStore, "no-store"), (.maxAge, "max-age"), (.maxStale, "max-stale"),
    (.minFresh, "min-fresh"), (.noTransform, "no-transform"), (.onlyIfCached, "only-if-cached")]

inductive CacheResponseDirective
  | isPublic | isPrivate | noCache | noStore | noTransform | mustRevalidate | proxyRevalidate
  | maxAge | sMaxage
  deriving DecidableEq

def http11HeaderCacheResponseDirectiveArray : List (CacheResponseDirective × String) :=
  [(.isPublic, "public"), (.isPrivate, "private"), (.noCache, "no-cache"), (.noStore, "no-store"),
    (.noTransform, "no-transform"), (.mustRevalidate, "must-revalidate"),
    (.proxyRevalidate, "proxy-revalidate"), (.maxAge, "max-age"), (.sMaxage, "s-maxage")]

/-- The loop over a table of directives. The cursor is not set back between two entries. -/
def directiveLoop {δ : Type} (h : Heap) :
    List (δ × String) → Stringaa → Option (Option δ × Stringaa)
  | [], request => some (none, request)
  | (i, name) :: names, request => do
    let (pc, request) ← bytesLoop h (literal name) request
    if pc = [] then return (some i, request) else directiveLoop h names request

/-- `http11_delta_seconds`: digits, of which nothing is said. -/
def http11DeltaSeconds (h : Heap) (request : Stringaa) : Option (Bool × Stringaa) := do
  return (false, ← http11CharsLoop h digitChars request.budget request)

/-- `if (stringaa_is_char(request, '=')) { if (http11_delta_seconds(request)) { } }`. -/
def equalsSeconds (h : Heap) (request : Stringaa) : Option Stringaa := do
  let (isEquals, request) ← stringaaIsChar h request (ch '=')
  if isEquals then return (← http11DeltaSeconds h request).2 else return request

def http11HeaderCacheRequestDirective (h : Heap) (request : Stringaa) :
    Option (Bool × Stringaa) := do
  let pos := request.readPos
  let (i, request) ← directiveLoop h http11HeaderCacheRequestDirectiveArray request
  match i with
  | none => return (false, request.seek pos)
  | some .maxAge | some .maxStale | some .minFresh => return (true, ← equalsSeconds h request)
  | some _ => return (true, request)

def http11FieldName (h : Heap) (request : Stringaa) : Option (Bool × Stringaa) :=
  rewinding (http11Token h) request

/-- A field name and a comma, as far as they are there. -/
def fieldNamesStep (h : Heap) (request : Stringaa) : Option Stringaa := do
  let (_, request) ← http11FieldName h request
  let (_, request) ← http11Lws h request
  let (_, request) ← stringaaIsChar h request (ch ',')
  let (_, request) ← http11Lws h request
  return request

/-- `while (1) { ... }` over field names and commas. There is no way out of it. -/
def fieldNamesLoop (h : Heap) : Nat → Stringaa → Option Stringaa
  | 0, _ => none
  | fuel + 1, request => do fieldNamesLoop h fuel (← fieldNamesStep h request)

/-- The first `n` passes of the loop. -/
def fieldNamesPasses (h : Heap) : Nat → Stringaa → Option Stringaa
  | 0, request => some request
  | n + 1, request => do fieldNamesPasses h n (← fieldNamesStep h request)

/-- `="`, field names and `"`, as far as they are there. -/
def equalsFieldNames (h : Heap) (fuel : Nat) (request : Stringaa) : Option Stringaa := do
  let (isEquals, request) ← stringaaIsChar h request (ch '=')
  if isEquals then
    let (isQuote, request) ← stringaaIsChar h request (ch '"')
    if isQuote then
      let request ← fieldNamesLoop h fuel request
      return (← stringaaIsChar h request (ch '"')).2
    else return request
  else return request

def http11HeaderCacheResponseDirective (h : Heap) (fuel : Nat) (request : Stringaa) :
    Option (Bool × Stringaa) := do
  let pos := request.readPos
  let (i, request) ← directiveLoop h http11HeaderCacheResponseDirectiveArray request
  match i with
  | none => return (false, request.seek pos)
  | some .isPrivate | some .noCache => return (true, ← equalsFieldNames h fuel request)
  | some .maxAge | some .sMaxage => return (true, ← equalsSeconds h request)
  | some _ => return (true, request)

def http11HeaderCacheDirective (h : Heap) (fuel : Nat) (request : Stringaa) :
    Option (Bool × Stringaa) := do
  let (isRequestDirective, request) ← http11HeaderCacheRequestDirective h request
  if isRequestDirective then return (true, request)
  else http11HeaderCacheResponseDirective h fuel request

/-! ### The same on texts -/

namespace Text

/-- The characters of the names of a table. -/
def names {δ : Type} (table : List (δ × String)) : List (δ × List UInt8) :=
  table.map (Prod.map id literal)

/-- A name of a table and what is left behind it, in any case. -/
def directive {δ : Type} (table : List (δ × String)) (s : List UInt8) : Option δ × List UInt8 :=
  lookup toLower (names table) s

private theorem directive_suffix {δ : Type} (table : List (δ × String)) (s : List UInt8) :
    (directive table s).2 <:+ s :=
  lookup_suffix (names table) s

def equalsSeconds (s : List UInt8) : List UInt8 :=
  if (isChar (ch '=') s).1 then (isChar (ch '=') s).2.dropWhile digitChars else s

/-- Nothing is left where the loop over the field names is entered. -/
def equalsFieldNames (s : List UInt8) : Option (List UInt8) :=
  if (isChar (ch '"') (isChar (ch '=') s).2).1 ∧ (isChar (ch '=') s).1 then none
  else some (isChar (ch '=') s).2

/-- What a request directive leaves. -/
def cacheRequestDirective (s : List UInt8) : List UInt8 :=
  let found := directive http11HeaderCacheRequestDirectiveArray s
  match found.1 with
  | none => s
  | some .maxAge | some .maxStale | some .minFresh => equalsSeconds found.2
  | some _ => found.2

/-- What a response directive leaves. -/
def cacheResponseDirective (s : List UInt8) : Option (List UInt8) :=
  let found := directive http11HeaderCacheResponseDirectiveArray s
  match found.1 with
  | none => some s
  | some .isPrivate | some .noCache => equalsFieldNames found.2
  | some .maxAge | some .sMaxage => some (equalsSeconds found.2)
  | some _ => some found.2

/-- Whether a directive is found, and what it leaves; nothing where the function does not return. -/
def cacheDirective (s : List UInt8) : Option (Bool × List UInt8) :=
  if (directive http11HeaderCacheRequestDirectiveArray s).1.isSome then
    some (true, cacheRequestDirective s)
  else
    (cacheResponseDirective s).map fun a =>
      ((directive http11HeaderCacheResponseDirectiveArray s).1.isSome, a)

end Text

section Follows

variable {h : Heap} {s : Stringaa} {c : Cursor UInt8} {a : List UInt8} {δ : Type}

private theorem ne_of_all {l : List UInt8} {x z : UInt8} (hall : (l.all fun x => x != z) = true)
    (hx : x ∈ l) : x ≠ z :=
  bne_iff_ne.mp (List.all_eq_true.mp hall x hx)

private theorem bytesLoop_skip (pc : List UInt8) (hpc : ∀ x ∈ pc, x ≠ toLower 0) (hs : s.Shows h c)
    (ha : a <:+ c.rest) : bytesLoop h pc (s.seek (c.to a).pos) =
      some ((skip toLower pc a).1, s.seek (c.to (skip toLower pc a).2).pos) := by
  induction pc generalizing a with
  | nil => cases a <;> rfl
  | cons x pc ih =>
      have hchar := hs.getChar_to ha
      have hnext := hs.next_to ha
      rcases a with _ | ⟨y, a⟩
      · have hx := hpc x List.mem_cons_self
        simp [bytesLoop, hchar, hx, skip]
      · by_cases hxy : x = toLower y
        · have hrest := ih (fun z hz => hpc z (List.mem_cons_of_mem x hz))
            ((List.suffix_cons y a).trans ha)
          simpa [bytesLoop, hchar, hnext, hxy, skip] using hrest
        · simp [bytesLoop, hchar, hxy, skip]

private theorem directiveLoop_lookup (table : List (δ × String))
    (htable : (table.all fun entry => (literal entry.2).all fun x => x != toLower 0) = true)
    (hs : s.Shows h c) (ha : a <:+ c.rest) : directiveLoop h table (s.seek (c.to a).pos) =
      some ((Text.directive table a).1, s.seek (c.to (Text.directive table a).2).pos) := by
  induction table generalizing a with
  | nil => rfl
  | cons entry table ih =>
      rw [List.all_cons, Bool.and_eq_true] at htable
      have hname := bytesLoop_skip (literal entry.2) (fun x hx => ne_of_all htable.1 hx) hs ha
      have hrest := ih htable.2
        ((skip_suffix (f := toLower) (literal entry.2) a).trans ha)
      simp only [directiveLoop, hname, Text.directive, Text.names, List.map_cons, Prod.map, id,
        lookup, Option.bind_eq_bind, Option.bind_some]
      by_cases hfound : (skip toLower (literal entry.2) a).1 = []
      · simp [hfound]
      · simpa [hfound, Text.directive, Text.names] using hrest

private theorem equalsSeconds_to (hs : s.Shows h c) (ha : a <:+ c.rest) :
    equalsSeconds h (s.seek (c.to a).pos) = some (s.seek (c.to (Text.equalsSeconds a)).pos) := by
  have hequals := (isChar_follows (by decide)).to (Text.isChar_suffix (ch '=')) hs ha
  have hdigits := digits_to hs ((Text.isChar_suffix (ch '=') a).trans ha)
  simp only [equalsSeconds, Text.equalsSeconds, hequals, http11DeltaSeconds, Option.bind_eq_bind,
    Option.bind_some]
  by_cases hok : (Text.isChar (ch '=') a).1 = true
  · simp [hok, hdigits]
  · simp [hok, Text.isChar_eq_self hok]

private theorem fieldNamesLoop_eq_none (fuel : Nat) (request : Stringaa) :
    fieldNamesLoop h fuel request = none := by
  induction fuel generalizing request with
  | zero => rfl
  | succ fuel ih => simp [fieldNamesLoop, ih]

private theorem fieldNamesStep_to (hs : s.Shows h c) (ha : a <:+ c.rest) :
    ∃ b, b <:+ c.rest ∧
      fieldNamesStep h (s.seek (c.to a).pos) = some (s.seek (c.to b).pos) := by
  have hfield : Tracks h (http11FieldName h) (Text.rewinding Text.token) := .rewinding .token
  have hname := (hfield.suffix a).trans ha
  have hblank := (Text.lws_suffix _).trans hname
  have hcomma := (Text.isChar_suffix (ch ',') _).trans hblank
  refine ⟨_, (Text.lws_suffix _).trans hcomma, ?_⟩
  simp only [fieldNamesStep, hfield.follows.to hfield.suffix hs ha,
    Tracks.lws.follows.to Text.lws_suffix hs hname,
    (isChar_follows (by decide)).to (Text.isChar_suffix (ch ',')) hs hblank,
    Tracks.lws.follows.to Text.lws_suffix hs hcomma, Option.bind_eq_bind, Option.bind_some]
  rfl

private theorem fieldNamesPasses_isSome (n : Nat) (hs : s.Shows h c) (ha : a <:+ c.rest) :
    (fieldNamesPasses h n (s.seek (c.to a).pos)).isSome := by
  induction n generalizing a with
  | zero => rfl
  | succ n ih =>
      obtain ⟨b, hb, hstep⟩ := fieldNamesStep_to hs ha
      rw [fieldNamesPasses, hstep]
      exact ih hb

private theorem equalsFieldNames_to (fuel : Nat) (hs : s.Shows h c) (ha : a <:+ c.rest) :
    equalsFieldNames h fuel (s.seek (c.to a).pos) =
      (Text.equalsFieldNames a).map fun a => s.seek (c.to a).pos := by
  have hequals := (isChar_follows (by decide)).to (Text.isChar_suffix (ch '=')) hs ha
  have hquote := (isChar_follows (by decide)).to (Text.isChar_suffix (ch '"')) hs
    ((Text.isChar_suffix (ch '=') a).trans ha)
  simp only [equalsFieldNames, Text.equalsFieldNames, hequals, Option.bind_eq_bind,
    Option.bind_some]
  by_cases hok : (Text.isChar (ch '=') a).1 = true
  · by_cases hok' : (Text.isChar (ch '"') (Text.isChar (ch '=') a).2).1 = true
    · simp [hok, hok', hquote, fieldNamesLoop_eq_none]
    · simp [hok, hok', hquote, Text.isChar_eq_self hok']
  · simp [hok]

private theorem cacheDirective_constants :
    (http11HeaderCacheRequestDirectiveArray.all fun entry =>
      (literal entry.2).all fun x => x != toLower 0) = true ∧
    (http11HeaderCacheResponseDirectiveArray.all fun entry =>
      (literal entry.2).all fun x => x != toLower 0) = true := by
  decide

private theorem cacheRequestDirective_eq (hs : s.Shows h c) :
    http11HeaderCacheRequestDirective h (s.seek c.pos) =
      some ((Text.directive http11HeaderCacheRequestDirectiveArray c.rest).1.isSome,
        s.seek (c.to (Text.cacheRequestDirective c.rest)).pos) := by
  have hself := List.suffix_refl c.rest
  have hfound := directiveLoop_lookup _ cacheDirective_constants.1 hs hself
  have hseconds := equalsSeconds_to hs
    (Text.directive_suffix http11HeaderCacheRequestDirectiveArray c.rest)
  rw [Cursor.to_self] at hfound
  simp only [http11HeaderCacheRequestDirective, hfound, Text.cacheRequestDirective,
    Option.bind_eq_bind, Option.bind_some]
  rcases hi : (Text.directive http11HeaderCacheRequestDirectiveArray c.rest).1 with _ | i
  · simp [Cursor.to_self]
  · cases i <;> simp [hseconds]

private theorem cacheResponseDirective_eq (fuel : Nat) (hs : s.Shows h c) :
    http11HeaderCacheResponseDirective h fuel (s.seek c.pos) =
      (Text.cacheResponseDirective c.rest).map fun a =>
        ((Text.directive http11HeaderCacheResponseDirectiveArray c.rest).1.isSome,
          s.seek (c.to a).pos) := by
  have hself := List.suffix_refl c.rest
  have hfound := directiveLoop_lookup _ cacheDirective_constants.2 hs hself
  have hsuffix := Text.directive_suffix http11HeaderCacheResponseDirectiveArray c.rest
  have hseconds := equalsSeconds_to hs hsuffix
  have hnames := equalsFieldNames_to fuel hs hsuffix
  rw [Cursor.to_self] at hfound
  simp only [http11HeaderCacheResponseDirective, hfound, Text.cacheResponseDirective,
    Option.bind_eq_bind, Option.bind_some]
  rcases hi : (Text.directive http11HeaderCacheResponseDirectiveArray c.rest).1 with _ | i
  · simp [Cursor.to_self]
  · rcases hleft : Text.equalsFieldNames
      (Text.directive http11HeaderCacheResponseDirectiveArray c.rest).2 with _ | a
    · cases i <;> simp [hseconds, hnames, hleft]
    · cases i <;> simp [hseconds, hnames, hleft]

private theorem cacheDirective_eq (fuel : Nat) (hs : s.Shows h c) :
    http11HeaderCacheDirective h fuel (s.seek c.pos) =
      (Text.cacheDirective c.rest).map fun r => (r.1, s.seek (c.to r.2).pos) := by
  have hresponse := cacheResponseDirective_eq fuel hs
  rw [http11HeaderCacheDirective, cacheRequestDirective_eq hs, Text.cacheDirective]
  by_cases hok : (Text.directive http11HeaderCacheRequestDirectiveArray c.rest).1.isSome = true
  · simp [hok]
  · have hnone : (Text.directive http11HeaderCacheRequestDirectiveArray c.rest).1 = none := by
      simpa using hok
    simp [hnone, Text.cacheRequestDirective, Cursor.to_self, hresponse, Function.comp_def]

end Follows

/-! ### What the functions leave -/

section Left

variable {s a : List UInt8}

private theorem Text.equalsSeconds_suffix (s : List UInt8) : Text.equalsSeconds s <:+ s := by
  rw [Text.equalsSeconds]
  split
  · exact (List.dropWhile_suffix digitChars).trans (isChar_suffix (ch '=') s)
  · exact List.suffix_refl s

private theorem Text.cacheRequestDirective_suffix
    (hfound : (directive http11HeaderCacheRequestDirectiveArray s).1.isSome) :
    Text.cacheRequestDirective s <:+ (directive http11HeaderCacheRequestDirectiveArray s).2 := by
  rw [Text.cacheRequestDirective]
  rcases hi : (directive http11HeaderCacheRequestDirectiveArray s).1 with _ | i
  · simp [hi] at hfound
  · cases i <;> simp [equalsSeconds_suffix]

private theorem Text.cacheResponseDirective_suffix (hleft : Text.cacheResponseDirective s = some a)
    (hfound : (directive http11HeaderCacheResponseDirectiveArray s).1.isSome) :
    a <:+ (directive http11HeaderCacheResponseDirectiveArray s).2 := by
  have hnames : ∀ s, Text.equalsFieldNames s = some a → a <:+ s := by
    intro s hnames
    rw [Text.equalsFieldNames] at hnames
    split at hnames
    · cases hnames
    · cases hnames
      exact isChar_suffix (ch '=') s
  have hseconds := equalsSeconds_suffix (directive http11HeaderCacheResponseDirectiveArray s).2
  rw [Text.cacheResponseDirective] at hleft
  rcases hi : (directive http11HeaderCacheResponseDirectiveArray s).1 with _ | i
  · simp [hi] at hfound
  · rw [hi] at hleft
    cases i with
    | isPrivate | noCache => exact hnames _ hleft
    | maxAge | sMaxage =>
        cases hleft
        exact hseconds
    | isPublic | noStore | noTransform | mustRevalidate | proxyRevalidate =>
        cases hleft
        exact List.suffix_refl _

end Left

/-! ### The names that are found -/

/-- The names of the two tables. -/
def cacheDirectiveNames : List String :=
  http11HeaderCacheRequestDirectiveArray.map Prod.snd ++
    http11HeaderCacheResponseDirectiveArray.map Prod.snd

/-- Those that no earlier name of a table hides. -/
def recognisedDirectives : List String :=
  ["no-cache", "max-age", "only-if-cached", "public", "must-revalidate", "s-maxage"]

private theorem cacheDirectives_scan : ∀ name ∈ cacheDirectiveNames,
    let request := lookup id (Text.names http11HeaderCacheRequestDirectiveArray) (literal name)
    let response := lookup id (Text.names http11HeaderCacheResponseDirectiveArray) (literal name)
    if name ∈ recognisedDirectives then
      request.1 ≠ none ∧ request.2 = [] ∨
        (request.1 = none ∧ request.2 ≠ []) ∧
          response.1 ∈ [some .isPublic, some .mustRevalidate, some .sMaxage] ∧ response.2 = []
    else (request.1 = none ∧ request.2 ≠ []) ∧ response.1 = none ∧ response.2 ≠ [] := by
  decide

private theorem cacheDirectives_ne_nil :
    (∀ entry ∈ http11HeaderCacheRequestDirectiveArray, literal entry.2 ≠ []) ∧
    (∀ entry ∈ http11HeaderCacheResponseDirectiveArray, literal entry.2 ≠ []) := by
  decide

section Names

variable {δ : Type} {name : String} {u t : List UInt8}

private theorem directive_spelled (table : List (δ × String))
    (htable : ∀ entry ∈ table, literal entry.2 ≠ []) (hu : u.map toLower = literal name)
    (hstop : (lookup id (Text.names table) (literal name)).1 ≠ none ∨
      (lookup id (Text.names table) (literal name)).2 ≠ []) :
    (Text.directive table (u ++ t)).1 = (lookup id (Text.names table) (literal name)).1 ∧
      ((lookup id (Text.names table) (literal name)).2 = [] →
        (Text.directive table (u ++ t)).2 = t) := by
  obtain ⟨hfound, hleft⟩ := lookup_map (f := toLower) (Text.names table) u
  rw [hu] at hfound hleft
  have hnames : ∀ q ∈ Text.names table, q.2 ≠ [] := by
    intro q hq
    obtain ⟨entry, hentry, rfl⟩ := List.mem_map.mp hq
    exact htable entry hentry
  have hstop' : (lookup toLower (Text.names table) u).1 ≠ none ∨
      (lookup toLower (Text.names table) u).2 ≠ [] := by
    rw [hfound]
    refine hstop.imp_right fun hne hnil => hne ?_
    rw [← hleft, hnil, List.map_nil]
  rw [Text.directive, lookup_append hnames hstop']
  refine ⟨hfound, fun hnil => ?_⟩
  rw [hnil, List.map_eq_nil_iff] at hleft
  rw [hleft, List.nil_append]

private theorem Text.cacheDirective_spelled (hname : name ∈ cacheDirectiveNames)
    (hu : u.map toLower = literal name) :
    ∃ a, Text.cacheDirective (u ++ t) = some (decide (name ∈ recognisedDirectives), a) ∧
      if name ∈ recognisedDirectives then a <:+ t else a = u ++ t := by
  have hscan := cacheDirectives_scan name hname
  have hrequest := directive_spelled (t := t) http11HeaderCacheRequestDirectiveArray
    cacheDirectives_ne_nil.1 hu
  have hresponse := directive_spelled (t := t) http11HeaderCacheResponseDirectiveArray
    cacheDirectives_ne_nil.2 hu
  by_cases hseen : name ∈ recognisedDirectives
  · simp only [if_pos hseen] at hscan
    rcases hscan with ⟨hfound, hnil⟩ | ⟨⟨hnone, hne⟩, hfound, hnil⟩
    · obtain ⟨hfound', hleft⟩ := hrequest (.inl hfound)
      have hsome := Option.isSome_iff_ne_none.mpr (hfound'.symm ▸ hfound)
      have hsuffix := Text.cacheRequestDirective_suffix hsome
      rw [hleft hnil] at hsuffix
      exact ⟨_, by rw [Text.cacheDirective, if_pos hsome, decide_eq_true hseen], by
        rwa [if_pos hseen]⟩
    · obtain ⟨hnone', -⟩ := hrequest (.inr hne)
      obtain ⟨hfound', hleft⟩ := hresponse (.inl (by rintro h; simp [h] at hfound))
      rw [← hfound'] at hfound
      have hruns : ∃ a, Text.cacheResponseDirective (u ++ t) = some a := by
        rw [Text.cacheResponseDirective]
        simp only [List.mem_cons, List.not_mem_nil, or_false] at hfound
        rcases hfound with hfound | hfound | hfound <;> simp [hfound]
      have hsome : (Text.directive http11HeaderCacheResponseDirectiveArray (u ++ t)).1.isSome := by
        rw [Option.isSome_iff_ne_none]
        rintro h
        simp [h] at hfound
      obtain ⟨a, ha⟩ := hruns
      have hsuffix := Text.cacheResponseDirective_suffix ha hsome
      rw [hleft hnil] at hsuffix
      refine ⟨a, ?_, by rwa [if_pos hseen]⟩
      rw [Text.cacheDirective, hnone', hnone, ha, hsome, decide_eq_true hseen]
      rfl
  · simp only [if_neg hseen] at hscan
    obtain ⟨⟨hnone, hne⟩, hnone', hne'⟩ := hscan
    refine ⟨u ++ t, ?_, by rw [if_neg hseen]⟩
    simp [Text.cacheDirective, Text.cacheResponseDirective, (hrequest (.inr hne)).1, hnone,
      (hresponse (.inr hne')).1, hnone', hseen]

end Names

/-- A directive in any case, in front of any text, is found when no earlier name of its table begins
with the same letter; otherwise the function leaves the cursor where it was. -/
theorem http11HeaderCacheDirective_names (h : Heap) (request : Stringaa) (name : String)
    (u t : List UInt8) (hread : Readable h request) (hname : name ∈ cacheDirectiveNames)
    (hu : u.map toLower = literal name) (htext : request.unread h = u ++ t) (fuel : Nat) :
    ∃ request', http11HeaderCacheDirective h fuel request =
        some (decide (name ∈ recognisedDirectives), request') ∧
      if name ∈ recognisedDirectives then request.readPos + u.length ≤ request'.readPos
      else request' = request := by
  obtain ⟨a, hrun, hleft⟩ := Text.cacheDirective_spelled (t := t) hname hu
  have heq := cacheDirective_eq fuel hread.shows
  rw [htext, hrun] at heq
  refine ⟨_, heq, ?_⟩
  by_cases hseen : name ∈ recognisedDirectives
  · rw [if_pos hseen] at hleft ⊢
    have hlength := hleft.length_le
    simp only [seek_readPos, Cursor.to, List.length_append]
    omega
  · rw [if_neg hseen] at hleft ⊢
    rw [hleft]
    exact congrArg request.seek (congrArg Cursor.pos (Cursor.to_self _))

/-- `S-MaxAge` in front of `=5`. -/
theorem http11HeaderCacheDirective_names_sMaxage :
    ∃ request', http11HeaderCacheDirective (.ofText (literal "S-MaxAge=5")) 0 (.ofText 0 10) =
        some (true, request') ∧ 8 ≤ request'.readPos := by
  obtain ⟨request', hrun, hleft⟩ := http11HeaderCacheDirective_names
    (.ofText (literal "S-MaxAge=5")) (.ofText 0 10) "s-maxage" (literal "S-MaxAge") (literal "=5")
    ⟨by decide, by decide⟩ (by decide) (by decide) (by decide) 0
  exact ⟨request', hrun, hleft⟩

/-! ### The texts from which there is no return -/

/-- Letters of a name from its beginning, but not all of them, in any case. -/
def IsPartOf (name : String) (v : List UInt8) : Prop :=
  ∃ x back, literal name = v.map toLower ++ x :: back

/-- Some letters of `public`, then `private`, or letters of `private` and `no-cache`, and `="`. -/
def StuckDirective (s : List UInt8) : Prop :=
  ∃ v w u t, s = v ++ (w ++ (u ++ ch '=' :: ch '"' :: t)) ∧ v ≠ [] ∧ IsPartOf "public" v ∧
    ((w = [] ∧ u.map toLower = literal "private") ∨
      (IsPartOf "private" w ∧ u.map toLower = literal "no-cache"))

section Stuck

variable {s a u : List UInt8}

private theorem Text.equalsFieldNames_eq_none :
    Text.equalsFieldNames s = none ↔ ∃ t, s = ch '=' :: ch '"' :: t := by
  rw [Text.equalsFieldNames]
  constructor
  · intro hnone
    split at hnone
    · rename_i hok
      obtain ⟨hquote, hequals⟩ := hok
      rcases s with _ | ⟨x, _ | ⟨y, t⟩⟩
      · cases hequals
      · by_cases hx : ch '=' = x
        · simp [isChar, hx] at hquote
        · simp [isChar, hx] at hequals
      · by_cases hx : ch '=' = x
        · by_cases hy : ch '"' = y
          · exact ⟨t, by rw [hx, hy]⟩
          · simp [isChar, hx, hy] at hquote
        · simp [isChar, hx] at hequals
    · cases hnone
  · rintro ⟨t, rfl⟩
    simp [isChar]

private theorem Text.cacheResponseDirective_eq_none :
    Text.cacheResponseDirective s = none ↔ ∃ t,
      directive http11HeaderCacheResponseDirectiveArray s =
          (some .isPrivate, ch '=' :: ch '"' :: t) ∨
        directive http11HeaderCacheResponseDirectiveArray s =
          (some .noCache, ch '=' :: ch '"' :: t) := by
  rw [Text.cacheResponseDirective]
  rcases directive http11HeaderCacheResponseDirectiveArray s with ⟨_ | i, a⟩
  · simp
  · cases i <;> simp [equalsFieldNames_eq_none]

private theorem directive_isPrivate_iff :
    Text.directive http11HeaderCacheResponseDirectiveArray s = (some .isPrivate, a) ↔
      ∃ s', Departs toLower (literal "public") s s' ∧
        ∃ u, u.map toLower = literal "private" ∧ s' = u ++ a := by
  simp only [Text.directive, http11HeaderCacheResponseDirectiveArray, Text.names, List.map_cons,
    Prod.map, id, lookup_cons_eq_some (d := CacheResponseDirective.isPublic),
    lookup_cons_eq_some (d := CacheResponseDirective.isPrivate)]
  constructor
  · rintro (⟨hne, -⟩ | ⟨s', hdeparts, ⟨-, hu⟩ | ⟨t, -, hfound⟩⟩)
    · cases hne
    · exact ⟨s', hdeparts, hu⟩
    · have hmem := lookup_mem (congrArg Prod.fst hfound)
      simp at hmem
  · rintro ⟨s', hdeparts, hu⟩
    exact .inr ⟨s', hdeparts, .inl ⟨trivial, hu⟩⟩

private theorem directive_noCache_iff :
    Text.directive http11HeaderCacheResponseDirectiveArray s = (some .noCache, a) ↔
      ∃ s' s'', Departs toLower (literal "public") s s' ∧
        Departs toLower (literal "private") s' s'' ∧ ∃ u, u.map toLower = literal "no-cache" ∧
        s'' = u ++ a := by
  simp only [Text.directive, http11HeaderCacheResponseDirectiveArray, Text.names, List.map_cons,
    Prod.map, id, lookup_cons_eq_some (d := CacheResponseDirective.isPublic),
    lookup_cons_eq_some (d := CacheResponseDirective.isPrivate),
    lookup_cons_eq_some (d := CacheResponseDirective.noCache)]
  constructor
  · rintro (⟨hne, -⟩ | ⟨s', hpublic, ⟨hne, -⟩ | ⟨s'', hprivate, ⟨-, hu⟩ | ⟨t, -, hfound⟩⟩⟩)
    · cases hne
    · cases hne
    · exact ⟨s', s'', hpublic, hprivate, hu⟩
    · have hmem := lookup_mem (congrArg Prod.fst hfound)
      simp at hmem
  · rintro ⟨s', s'', hpublic, hprivate, hu⟩
    exact .inr ⟨s', hpublic, .inr ⟨s'', hprivate, .inl ⟨trivial, hu⟩⟩⟩

private theorem ne_of_spelled {x z : UInt8} {rest t : List UInt8} (hu : u.map toLower = z :: rest)
    (hne : x ≠ z) : ∀ y ∈ (u ++ t).head?, x ≠ toLower y := by
  obtain ⟨y, u, rfl, hy, -⟩ := List.map_eq_cons_iff.mp hu
  intro y' hy'
  cases hy'
  rwa [hy]

private theorem literal_public : literal "public" = ch 'p' :: literal "ublic" := by decide

private theorem literal_private : literal "private" = ch 'p' :: literal "rivate" := by decide

private theorem literal_noCache : literal "no-cache" = ch 'n' :: literal "o-cache" := by decide

private theorem public_front_ne_nil {v w back rest t : List UInt8} {x : UInt8}
    (hname : literal "public" = v.map toLower ++ x :: back) (hw : w.map toLower = ch 'p' :: rest)
    (hnext : ∀ y ∈ (w ++ t).head?, x ≠ toLower y) : v ≠ [] := by
  obtain ⟨y, w, rfl, hy, -⟩ := List.map_eq_cons_iff.mp hw
  rintro rfl
  rw [literal_public, List.map_nil, List.nil_append] at hname
  exact hnext y rfl ((List.cons_eq_cons.mp hname).1.symm.trans hy.symm)

private theorem public_next {v back : List UInt8} {x : UInt8} (hv : v ≠ [])
    (hname : literal "public" = v.map toLower ++ x :: back) : x ≠ ch 'p' ∧ x ≠ ch 'n' := by
  have hp : ((literal "public").tail.all fun x => x != ch 'p') = true := by decide
  have hn : ((literal "public").tail.all fun x => x != ch 'n') = true := by decide
  have hx : x ∈ (literal "public").tail := by
    obtain ⟨y, v, rfl⟩ := List.exists_cons_of_ne_nil hv
    rw [hname, List.map_cons, List.cons_append, List.tail_cons]
    exact List.mem_append_right _ List.mem_cons_self
  exact ⟨ne_of_all hp hx, ne_of_all hn hx⟩

private theorem private_next {w back : List UInt8} {x : UInt8}
    (hname : literal "private" = w.map toLower ++ x :: back) : x ≠ ch 'n' := by
  have hall : ((literal "private").all fun x => x != ch 'n') = true := by decide
  refine ne_of_all hall ?_
  rw [hname]
  exact List.mem_append_right _ List.mem_cons_self

private theorem isPartOf_head {name : String} {z : UInt8} {rest w : List UInt8}
    (hliteral : literal name = z :: rest) (hpart : IsPartOf name w) (hw : w ≠ []) :
    ∃ rest, w.map toLower = z :: rest := by
  obtain ⟨x, back, hname⟩ := hpart
  obtain ⟨y, w, rfl⟩ := List.exists_cons_of_ne_nil hw
  rw [hliteral, List.map_cons, List.cons_append] at hname
  exact ⟨w.map toLower, by rw [List.map_cons, (List.cons_eq_cons.mp hname).1]⟩

private theorem cacheRequestDirective_noCache {t : List UInt8}
    (hu : u.map toLower = literal "no-cache") :
    (Text.directive http11HeaderCacheRequestDirectiveArray (u ++ t)).1 ≠ none := by
  have hfound : Text.directive http11HeaderCacheRequestDirectiveArray (u ++ t) =
      (some .noCache, t) :=
    lookup_cons_eq_some.mpr (.inl ⟨rfl, u, hu, rfl⟩)
  rw [hfound]
  exact Option.some_ne_none _

private theorem cacheRequestDirective_p {w rest : List UInt8} (hw : w.map toLower = ch 'p' :: rest)
    (t : List UInt8) :
    (Text.directive http11HeaderCacheRequestDirectiveArray (w ++ t)).1 = none := by
  have hheads : ∀ q ∈ Text.names http11HeaderCacheRequestDirectiveArray,
      q.2 ≠ [] ∧ q.2.head? ≠ some (ch 'p') := by
    decide
  rw [Text.directive, lookup_departs]
  intro q hq
  obtain ⟨hne, hhead⟩ := hheads q hq
  obtain ⟨x, back, hname⟩ := List.exists_cons_of_ne_nil hne
  refine ⟨[], x, back, hname, rfl, ne_of_spelled hw ?_⟩
  rintro rfl
  exact hhead (by rw [hname]; rfl)

private theorem StuckDirective.of_none
    (hrequest : (Text.directive http11HeaderCacheRequestDirectiveArray s).1 = none)
    (hresponse : Text.cacheResponseDirective s = none) : StuckDirective s := by
  simp only [Text.cacheResponseDirective_eq_none, directive_isPrivate_iff, directive_noCache_iff]
    at hresponse
  obtain ⟨t, ⟨s', ⟨v, x, back, hname, rfl, hnext⟩, u, hu, rfl⟩ |
    ⟨s', s'', ⟨v, x, back, hname, rfl, hnext⟩, ⟨w, x', back', hname', rfl, -⟩, u, hu, rfl⟩⟩ :=
      hresponse
  · exact ⟨v, [], u, t, rfl, public_front_ne_nil hname (hu.trans literal_private) hnext,
      ⟨x, back, hname⟩, .inl ⟨rfl, hu⟩⟩
  · refine ⟨v, w, u, t, rfl, ?_, ⟨x, back, hname⟩, .inr ⟨⟨x', back', hname'⟩, hu⟩⟩
    by_cases hw : w = []
    · -- with no letters in front of it `no-cache` is a request directive
      rintro rfl
      rw [hw] at hrequest
      exact cacheRequestDirective_noCache hu hrequest
    · obtain ⟨rest, hrest⟩ := isPartOf_head literal_private ⟨x', back', hname'⟩ hw
      exact public_front_ne_nil hname hrest hnext

theorem StuckDirective.none (hstuck : StuckDirective s) :
    (Text.directive http11HeaderCacheRequestDirectiveArray s).1 = none ∧
      Text.cacheResponseDirective s = none := by
  obtain ⟨v, w, u, t, rfl, hv, ⟨x, back, hname⟩, hcase⟩ := hstuck
  obtain ⟨rest, hrest⟩ := isPartOf_head literal_public ⟨x, back, hname⟩ hv
  obtain ⟨hp, hn⟩ := public_next hv hname
  refine ⟨cacheRequestDirective_p hrest _, ?_⟩
  simp only [Text.cacheResponseDirective_eq_none, directive_isPrivate_iff, directive_noCache_iff]
  refine ⟨t, ?_⟩
  rcases hcase with ⟨rfl, hu⟩ | ⟨⟨x', back', hname'⟩, hu⟩
  · exact .inl ⟨_, ⟨v, x, back, hname, rfl,
      ne_of_spelled (u := u) (hu.trans literal_private) hp⟩, u, hu, rfl⟩
  · have hdeparts : Departs toLower (literal "private") (w ++ (u ++ ch '=' :: ch '"' :: t))
        (u ++ ch '=' :: ch '"' :: t) :=
      ⟨w, x', back', hname', rfl, ne_of_spelled (hu.trans literal_noCache) (private_next hname')⟩
    refine .inr ⟨_, _, ⟨v, x, back, hname, rfl, ?_⟩, hdeparts, u, hu, rfl⟩
    by_cases hw : w = []
    · rw [hw, List.nil_append]
      exact ne_of_spelled (hu.trans literal_noCache) hn
    · obtain ⟨rest', hrest'⟩ := isPartOf_head literal_private ⟨x', back', hname'⟩ hw
      exact ne_of_spelled hrest' hp

private theorem Text.cacheDirective_eq_none : Text.cacheDirective s = none ↔ StuckDirective s := by
  have hsplit : Text.cacheDirective s = none ↔
      (directive http11HeaderCacheRequestDirectiveArray s).1 = none ∧
        Text.cacheResponseDirective s = none := by
    rw [Text.cacheDirective]
    rcases (directive http11HeaderCacheRequestDirectiveArray s).1 with _ | i
    · simp
    · simp
  rw [hsplit]
  exact ⟨fun ⟨hrequest, hresponse⟩ => .of_none hrequest hresponse, StuckDirective.none⟩

private theorem Text.cacheDirective_false (hrun : Text.cacheDirective s = some (false, a)) :
    a = s := by
  rw [Text.cacheDirective] at hrun
  split at hrun
  · cases hrun
  · obtain ⟨b, hb, heq⟩ := Option.map_eq_some_iff.mp hrun
    obtain ⟨hnone, rfl⟩ := Prod.mk.inj heq
    rw [Option.isSome_eq_false_iff, Option.isNone_iff_eq_none] at hnone
    rw [Text.cacheResponseDirective, hnone] at hb
    exact (Option.some.inj hb).symm

end Stuck

/-- The function returns, however long it is let run, from the texts that are not stuck, and leaves
the cursor alone where it finds nothing; from the others it never returns, though no pass of its
loop leaves the text. -/
theorem http11HeaderCacheDirective_returns (h : Heap) (request : Stringaa)
    (hread : Readable h request) :
    (StuckDirective (request.unread h) →
      ∀ fuel, http11HeaderCacheDirective h fuel request = none) ∧
    (∀ n, (fieldNamesPasses h n request).isSome) ∧
    (¬ StuckDirective (request.unread h) → ∃ is request',
      (∀ fuel, http11HeaderCacheDirective h fuel request = some (is, request')) ∧
        (is = false → request' = request)) := by
  have heq (fuel : Nat) := cacheDirective_eq fuel hread.shows
  have hpasses (n : Nat) : (fieldNamesPasses h n request).isSome := by
    have hself := fieldNamesPasses_isSome n hread.shows (List.suffix_refl _)
    rwa [Cursor.to_self] at hself
  rw [← Text.cacheDirective_eq_none]
  rcases hrun : Text.cacheDirective (request.unread h) with _ | ⟨is, a⟩
  · refine ⟨fun _ fuel => ?_, hpasses, fun hne => absurd rfl hne⟩
    exact (heq fuel).trans (by rw [hrun]; rfl)
  · refine ⟨fun hnone => absurd hnone (Option.some_ne_none _), hpasses, fun _ => ?_⟩
    have hruns (fuel : Nat) : http11HeaderCacheDirective h fuel request =
        some (is, request.seek ((Cursor.mk request.readPos (request.unread h)).to a).pos) :=
      (heq fuel).trans (by rw [hrun]; rfl)
    refine ⟨is, _, hruns, ?_⟩
    rintro rfl
    rw [Text.cacheDirective_false hrun]
    exact congrArg request.seek (congrArg Cursor.pos (Cursor.to_self _))

/-- `private` behind a letter of `public`. -/
theorem http11HeaderCacheDirective_returns_private :
    (∀ fuel, http11HeaderCacheDirective (.ofText (literal "pPrivate=\"a")) fuel (.ofText 0 11) =
        none) ∧
      ∀ n, (fieldNamesPasses (.ofText (literal "pPrivate=\"a")) n (.ofText 0 11)).isSome := by
  obtain ⟨hstuck, hpasses, -⟩ := http11HeaderCacheDirective_returns
    (.ofText (literal "pPrivate=\"a")) (.ofText 0 11) ⟨by decide, by decide⟩
  refine ⟨hstuck ?_, hpasses⟩
  exact ⟨literal "p", [], literal "Private", literal "a", by decide, by decide,
    ⟨ch 'u', literal "blic", by decide⟩, .inl ⟨rfl, by decide⟩⟩

end Httpaa
