import Ecphoria.Query.Literals

/-! When a query is planned as what it says: where the offset of the name is one of the text, which
literals come back, and which queries are taken for a lookup. -/
namespace Ecphoria.Query
open Library

section Slices

variable {s rest : List Char} {n : Nat}

theorem sliceFrom_iff : sliceFrom s n = some rest ↔ ∃ front, s = front ++ rest ∧ utf8Length front = n := by
  induction s generalizing n with
  | nil =>
    cases n with
    | zero =>
      rw [sliceFrom]
      constructor
      · rintro ⟨⟩
        exact ⟨[],rfl,rfl⟩
      · rintro ⟨front,whole,-⟩
        rw [(List.append_eq_nil_iff.mp whole.symm).2]
    | succ n =>
      rw [sliceFrom]
      constructor
      · rintro ⟨⟩
      · rintro ⟨front,whole,length⟩
        rw [(List.append_eq_nil_iff.mp whole.symm).1] at length
        cases length
  | cons c s ih =>
    have size := c.utf8Size_pos
    cases n with
    | zero =>
      rw [sliceFrom]
      constructor
      · rintro ⟨⟩
        exact ⟨[],rfl,rfl⟩
      · rintro ⟨front,whole,length⟩
        cases front with
        | nil => rw [whole]; rfl
        | cons d front =>
          simp only [utf8Length,List.map_cons,List.sum_cons] at length
          have := d.utf8Size_pos
          omega
    | succ n =>
      rw [sliceFrom]
      split
      next fits =>
        rw [ih]
        constructor
        · rintro ⟨front,rfl,length⟩
          refine ⟨c :: front,rfl,?_⟩
          simp only [utf8Length,List.map_cons,List.sum_cons] at length ⊢
          omega
        · rintro ⟨front,whole,length⟩
          cases front with
          | nil => cases length
          | cons d front =>
            obtain ⟨rfl,rfl⟩ := List.cons.inj whole
            refine ⟨front,rfl,?_⟩
            simp only [utf8Length,List.map_cons,List.sum_cons] at length ⊢
            omega
      next long =>
        constructor
        · rintro ⟨⟩
        · rintro ⟨front,whole,length⟩
          cases front with
          | nil => cases length
          | cons d front =>
            obtain ⟨rfl,rfl⟩ := List.cons.inj whole
            simp only [utf8Length,List.map_cons,List.sum_cons] at length
            omega

def Closes (s : List Char) : Prop := ∃ front args back, s = front ++ '(' :: (args ++ ')' :: back)

theorem closes_iff : ((after '(' s).bind (before ')')).isSome ↔ Closes s := by
  constructor
  · intro found
    obtain ⟨args,cutAt⟩ := Option.isSome_iff_exists.mp found
    obtain ⟨rest,opened,closed⟩ := Option.bind_eq_some_iff.mp cutAt
    rw [before,Option.ite_none_right_eq_some] at closed
    obtain ⟨front,back,rfl⟩ := List.append_of_mem closed.1
    rw [after] at opened
    split at opened
    · cases opened
    next c rest kept =>
      cases opened
      have stop : c = '(' := by
        have first := head_dropWhile (p := (· != '(')) (s := s) (a := c) (by rw [kept]; rfl)
        simpa using first
      have whole := List.takeWhile_append_dropWhile (p := (· != '(')) (l := s)
      rw [kept,stop] at whole
      exact ⟨s.takeWhile (· != '('),front,back,whole.symm⟩
  · rintro ⟨front,args,back,rfl⟩
    have opens : '(' ∈ front ++ '(' :: (args ++ ')' :: back) := by simp
    obtain ⟨lead,rest,whole,absent⟩ := List.eq_append_cons_of_mem opens
    have closed : ')' ∈ rest := by
      rcases List.append_eq_append_iff.mp whole with ⟨more,rfl,same⟩ | ⟨more,rfl,same⟩
      · cases more with
        | nil =>
          rw [← (List.cons.inj same).2]
          simp
        | cons c more =>
          rw [← (List.cons.inj same).1] at absent
          simp at absent
      · cases more with
        | nil =>
          rw [(List.cons.inj same).2]
          simp
        | cons c more =>
          rw [(List.cons.inj same).2]
          simp
    rw [whole,after_absent absent,Option.bind_some,before,if_pos closed]
    rfl

end Slices

section Ascii

variable (m : CaseMap)

theorem lowercaseFrom_ascii {s : List Char} (ascii : ∀ c ∈ s, c.toNat < 128) (read rest : List Char) :
    lowercaseFrom m read (s ++ rest) = s.map Char.toLower ++ lowercaseFrom m (s.reverse ++ read) rest := by
  induction s generalizing read with
  | nil => rfl
  | cons c s ih =>
    have plain : c ≠ 'Σ' := by
      rintro rfl
      exact absurd (ascii 'Σ' List.mem_cons_self) (by decide)
    rw [List.cons_append,lowercaseFrom,if_neg plain,m.lower_ascii c (ascii c List.mem_cons_self),
      ih (fun d later => ascii d (List.mem_cons_of_mem _ later))]
    simp

theorem toLowercase_ascii {s : List Char} (ascii : ∀ c ∈ s, c.toNat < 128) : toLowercase m s = s.map Char.toLower := by
  have whole := lowercaseFrom_ascii m ascii [] []
  rwa [List.append_nil,lowercaseFrom,List.append_nil] at whole

theorem toUppercase_ascii {s : List Char} (ascii : ∀ c ∈ s, c.toNat < 128) (rest : List Char) :
    toUppercase m (s ++ rest) = s.map Char.toUpper ++ toUppercase m rest := by
  rw [toUppercase,List.flatMap_append]
  congr 1
  induction s with
  | nil => rfl
  | cons c s ih =>
    rw [List.flatMap_cons,m.upper_ascii c (ascii c List.mem_cons_self),
      ih (fun d later => ascii d (List.mem_cons_of_mem _ later))]
    rfl

theorem call_led {front : List Char} {name upper : String} {rest : List Char}
    (plain : (front ++ name.toList ++ ['(']).all (fun c => c.toNat < 128) = true) (lower : name.toList.map Char.toLower = name.toList)
    (raised : name.toList.map Char.toUpper = upper.toList)
    (found : ∀ s, find name.toList (front.map Char.toLower ++ name.toList ++ s) = some (utf8Length front)) :
    call m (front ++ name.toList ++ ['('] ++ rest) name upper = some (before ')' rest) := by
  have ascii : ∀ c ∈ front ++ name.toList ++ ['('], c.toNat < 128 :=
    fun c member => of_decide_eq_true (List.all_eq_true.mp plain c member)
  have lowered : toLowercase m name.toList = name.toList := by
    rw [toLowercase_ascii m (fun c member => ascii c (by simp [member])),lower]
  have mentioned : mentions m (front ++ name.toList ++ ['('] ++ rest) upper.toList = true := by
    rw [mentions,toUppercase_ascii m ascii,Bool.or_eq_true]
    left
    rw [decide_eq_true_iff,List.map_append,List.map_append,raised]
    exact ⟨front.map Char.toUpper,toUppercase m rest,by simp⟩
  have place : find (toLowercase m name.toList) (toLowercase m (front ++ name.toList ++ ['('] ++ rest)) =
      some (utf8Length front) := by
    rw [lowered,toLowercase,lowercaseFrom_ascii m ascii,List.map_append,List.map_append,lower,List.append_assoc]
    exact found _
  have slice : sliceFrom (front ++ name.toList ++ ['('] ++ rest) (utf8Length front + utf8Length name.toList) =
      some ('(' :: rest) := by
    apply sliceFrom_iff.mpr
    exact ⟨front ++ name.toList,by simp,by simp [utf8Length]⟩
  rw [call,if_pos mentioned,extractFunctionArgs,place]
  simp only [slice,Option.map_some]
  rfl

end Ascii

section Calls

variable (m : CaseMap)

/-- The offset of the name in the lower-cased text, and its length, end at a character of the text. -/
def Aligned (s name : List Char) : Prop :=
  ∀ pos, find (toLowercase m name) (toLowercase m s) = some pos →
    ∃ front rest, s = front ++ rest ∧ utf8Length front = pos + utf8Length name

/-- The text mentions the name before a parenthesis, and at the offset where the name is found
parentheses open and close. -/
def Called (s : List Char) (name upper : String) : Prop :=
  mentions m s upper.toList = true ∧ ∃ pos front rest, find (toLowercase m name.toList) (toLowercase m s) = some pos ∧
    s = front ++ rest ∧ utf8Length front = pos + utf8Length name.toList ∧ Closes rest

variable {m : CaseMap} {s : List Char} {name upper : String}

theorem call_eq_none : call m s name upper = none ↔ mentions m s upper.toList = true ∧ ¬Aligned m s name.toList := by
  rw [call]
  split
  next mentioned =>
    rw [extractFunctionArgs]
    cases found : find (toLowercase m name.toList) (toLowercase m s) with
    | none => simp [Aligned,found]
    | some pos =>
      have aligned : Aligned m s name.toList ↔ ∃ rest, sliceFrom s (pos + utf8Length name.toList) = some rest := by
        simp only [Aligned,found,Option.some.injEq,forall_eq',sliceFrom_iff]
        exact exists_comm
      rw [aligned]
      cases sliced : sliceFrom s (pos + utf8Length name.toList) <;> simp [mentioned,sliced]
  next unmentioned => simp [unmentioned]

theorem called_iff : Called m s name upper ↔ ∃ args, call m s name upper = some (some args) := by
  rw [call]
  split
  next mentioned =>
    rw [extractFunctionArgs,Called]
    cases found : find (toLowercase m name.toList) (toLowercase m s) with
    | none => simp
    | some pos =>
      constructor
      · rintro ⟨-,_,front,rest,⟨⟩,whole,length,closes⟩
        obtain ⟨args,cutAt⟩ := Option.isSome_iff_exists.mp (closes_iff.mpr closes)
        exact ⟨args,by simp only [sliceFrom_iff.mpr ⟨front,whole,length⟩,Option.map_some,cutAt]⟩
      · rintro ⟨args,cutAt⟩
        obtain ⟨rest,sliced,cutAt⟩ := Option.map_eq_some_iff.mp cutAt
        obtain ⟨front,whole,length⟩ := sliceFrom_iff.mp sliced
        exact ⟨mentioned,pos,front,rest,rfl,whole,length,closes_iff.mp (by rw [cutAt]; rfl)⟩
  next unmentioned => simp [Called,unmentioned]

end Calls

section Plans

variable {m : CaseMap} {parseSql : List Char → Except String (List Statement)} {sql : String}

def trimmed (sql : String) : List Char := trimMatches isWhitespace sql.toList

theorem plan_of_search {args : List Char}
    (called : call m (trimmed sql) "ecphoria_search" "ECPHORIA_SEARCH" = some (some args)) :
    plan m parseSql sql = some (searchPlan args) := by
  rw [trimmed] at called
  simp [plan,called]

theorem plan_of_state {args : List Char}
    (passed : call m (trimmed sql) "ecphoria_search" "ECPHORIA_SEARCH" = some none)
    (called : call m (trimmed sql) "ecphoria_state" "ECPHORIA_STATE" = some (some args)) :
    plan m parseSql sql = some (statePlan args) := by
  rw [trimmed] at passed called
  simp [plan,passed,called]

theorem plan_of_neither (passed : call m (trimmed sql) "ecphoria_search" "ECPHORIA_SEARCH" = some none)
    (also : call m (trimmed sql) "ecphoria_state" "ECPHORIA_STATE" = some none) :
    plan m parseSql sql = some (statementPlan parseSql (trimmed sql)) := by
  rw [trimmed] at passed also
  simp [plan,passed,also,trimmed]

theorem plan_of_panic (panics : call m (trimmed sql) "ecphoria_search" "ECPHORIA_SEARCH" = none) :
    plan m parseSql sql = none := by
  rw [trimmed] at panics
  simp [plan,panics]

theorem plan_of_later_panic (passed : call m (trimmed sql) "ecphoria_search" "ECPHORIA_SEARCH" = some none)
    (panics : call m (trimmed sql) "ecphoria_state" "ECPHORIA_STATE" = none) : plan m parseSql sql = none := by
  rw [trimmed] at passed panics
  simp [plan,passed,panics]

end Plans

section Queries

def lead : List Char := "SELECT * FROM ".toList

/-- `SELECT * FROM ecphoria_search('t', k)`, with the text as a literal. -/
def searchQuery (t : String) (k : Nat) : String :=
  String.ofList (lead ++ "ecphoria_search".toList ++ ['('] ++
    (literal t.toList ++ ',' :: ' ' :: Nat.toDigits 10 k ++ [')']))

/-- `SELECT * FROM ecphoria_state('a', 'y')`. -/
def stateQuery (a y : String) : String :=
  String.ofList (lead ++ "ecphoria_state".toList ++ ['('] ++
    (literal a.toList ++ ',' :: ' ' :: literal y.toList ++ [')']))

theorem ofList_eq {s : List Char} {t : String} : String.ofList s = t ↔ s = t.toList := by
  rw [String.ext_iff,String.toList_ofList]

theorem trimmed_led {name rest : List Char} :
    trimmed (String.ofList (lead ++ name ++ ['('] ++ (rest ++ [')']))) = lead ++ name ++ ['('] ++ (rest ++ [')']) := by
  rw [trimmed,String.toList_ofList]
  apply trimMatches_eq_self
  · intro c first
    cases first
    decide
  · intro c last
    rw [← List.append_assoc,List.getLast?_concat] at last
    cases last
    decide

variable {m : CaseMap} {parseSql : List Char → Except String (List Statement)}

theorem call_search (rest : List Char) : call m (lead ++ "ecphoria_search".toList ++ ['('] ++ rest) "ecphoria_search"
    "ECPHORIA_SEARCH" = some (before ')' rest) :=
  call_led m (by decide) (by decide) (by decide) (fun _ => rfl)

theorem call_state (rest : List Char) : call m (lead ++ "ecphoria_state".toList ++ ['('] ++ rest) "ecphoria_state"
    "ECPHORIA_STATE" = some (before ')' rest) :=
  call_led m (by decide) (by decide) (by decide) (fun _ => rfl)

theorem plan_searchQuery_iff {t : String} {k : Nat} (small : k < 2 ^ 64) :
    plan m parseSql (searchQuery t k) = some (.vectorSearch t k) ↔
      Quotable t.toList ∧ ',' ∉ t.toList ∧ ')' ∉ t.toList := by
  have called : call m (trimmed (searchQuery t k)) "ecphoria_search" "ECPHORIA_SEARCH" =
      some (some (cut (literal t.toList ++ ',' :: ' ' :: Nat.toDigits 10 k))) := by
    rw [searchQuery,trimmed_led,call_search,before_concat,cut]
  rw [plan_of_search called,searchPlan,Option.some.injEq,QueryPlan.vectorSearch.injEq]
  constructor
  · rintro ⟨text,-⟩
    exact first_iff.mp (ofList_eq.mp text)
  · intro clean
    refine ⟨ofList_eq.mpr (first_iff.mpr clean),?_⟩
    rw [(first_cut clean.2.1 clean.2.2).2,Option.bind_some,count_cut small,Option.getD_some]

theorem plan_stateQuery_iff {a y : String} : plan m parseSql (stateQuery a y) = some (.stateGet a y) ↔
    call m (trimmed (stateQuery a y)) "ecphoria_search" "ECPHORIA_SEARCH" = some none ∧
      (Quotable a.toList ∧ ',' ∉ a.toList ∧ ')' ∉ a.toList) ∧ Quotable y.toList ∧ ')' ∉ y.toList := by
  have called : call m (trimmed (stateQuery a y)) "ecphoria_state" "ECPHORIA_STATE" =
      some (some (cut (literal a.toList ++ ',' :: ' ' :: literal y.toList))) := by
    rw [stateQuery,trimmed_led,call_state,before_concat,cut]
  cases search : call m (trimmed (stateQuery a y)) "ecphoria_search" "ECPHORIA_SEARCH" with
  | none => simp [plan_of_panic search]
  | some found =>
    cases found with
    | some args => simp [plan_of_search search,searchPlan]
    | none =>
      rw [plan_of_state search called,statePlan,Option.some.injEq,QueryPlan.stateGet.injEq]
      constructor
      · rintro ⟨agent,key⟩
        have clean := first_iff.mp (ofList_eq.mp agent)
        rw [(first_cut clean.2.1 clean.2.2).2,Option.map_some,Option.getD_some] at key
        exact ⟨rfl,clean,second_iff.mp (ofList_eq.mp key)⟩
      · rintro ⟨-,clean,key⟩
        rw [(first_cut clean.2.1 clean.2.2).2,Option.map_some,Option.getD_some]
        exact ⟨ofList_eq.mpr (first_iff.mpr clean),ofList_eq.mpr (second_iff.mpr key)⟩

end Queries

section Bare

def Blank (s : List Char) : Prop := ∀ c ∈ s, isWhitespace c = true

def wordSign (c : Char) : Bool := c.isAlphanum || c = '_'

def Word (s : List Char) : Prop := ∀ c ∈ s, wordSign c = true

inductive Arguments : List Char → Prop
  | nil : Arguments []
  | plain {c : Char} {s : List Char} (sort : c.isDigit = true ∨ c = ',' ∨ isWhitespace c = true) (rest : Arguments s) :
    Arguments (c :: s)
  | literal (t : List Char) {s : List Char} (rest : Arguments s) : Arguments (literal t ++ s)

/-- The columns of one selection: no further selection starts in them, and they stand apart from the words around them. -/
structure Columns (columns : List Char) : Prop where
  listed : ∀ c ∈ columns, wordSign c = true ∨ isWhitespace c = true ∨ c ∈ ['*',',','.']
  single : ∀ word ∈ columns.splitOnP (fun c => !wordSign c), word.map Char.toLower ∉
    ["select".toList,"from".toList,"union".toList,"intersect".toList,"except".toList]
  opened : ∃ c ∈ columns.head?, wordSign c = false
  closed : ∃ c ∈ columns.getLast?, wordSign c = false

/-- A query that selects columns from one call, perhaps under another name, and asks for nothing
else. -/
inductive Bare : List Char → Prop
  | query {start select columns source gap name space args gap' kw gap'' other close : List Char}
    (leading : Blank start) (selects : select.map Char.toLower = "select".toList) (listed : Columns columns)
    (sources : source.map Char.toLower = "from".toList) (some : gap ≠ []) (gapped : Blank gap)
    (named : name.map Char.toLower ∈ ["ecphoria_search".toList,"ecphoria_state".toList]) (spaced : Blank space)
    (arguments : Arguments args) (gapped' : Blank gap') (renamed : kw = [] ∨ kw.map Char.toLower = "as".toList)
    (gapped'' : Blank gap'') (word : Word other) (closed : ∀ c ∈ close, isWhitespace c = true ∨ c = ';') :
    Bare (start ++ select ++ columns ++ source ++ gap ++ name ++ space ++
      '(' :: (args ++ ')' :: (gap' ++ kw ++ gap'' ++ other ++ close)))

theorem getLast?_call (front args tail : List Char) :
    (front ++ '(' :: (args ++ ')' :: tail)).getLast? = (')' :: tail).getLast? := by
  rw [← List.cons_append,← List.append_assoc,List.getLast?_append_cons]

theorem Bare.last {s : List Char} (bare : Bare s) : s.getLast? ≠ some '\'' := by
  cases bare with
  | @query start select columns source gap name space args gap' kw gap'' other close leading selects listed sources
      some gapped named spaced arguments gapped' renamed gapped'' word closed =>
    intro last
    have quote : '\'' ∈ ')' :: (gap' ++ kw ++ gap'' ++ other ++ close) := by
      rw [getLast?_call] at last
      exact List.mem_of_getLast? last
    have blank : isWhitespace '\'' ≠ true := by decide
    simp only [List.mem_cons,List.mem_append] at quote
    rcases quote with quote | (((quote | quote) | quote) | quote) | quote
    · exact absurd quote (by decide)
    · exact blank (gapped' _ quote)
    · rcases renamed with none | renamed
      · rw [none] at quote
        cases quote
      · have lowered := List.mem_map_of_mem (f := Char.toLower) quote
        rw [renamed] at lowered
        exact absurd lowered (by decide)
    · exact blank (gapped'' _ quote)
    · exact absurd (word _ quote) (by decide)
    · exact absurd (closed _ quote) (by decide)

end Bare

section Faithful

def QueryPlan.isLookup : QueryPlan → Bool
  | .vectorSearch _ _ | .stateGet _ _ => true
  | _ => false

/-- A query is planned as what it says. -/
structure Faithful (m : CaseMap) (parseSql : List Char → Except String (List Statement)) (sql : String) : Prop where
  total : plan m parseSql sql ≠ none
  search : ∀ t k, k < 2 ^ 64 → sql = searchQuery t k → plan m parseSql sql = some (.vectorSearch t k)
  state : ∀ a y, sql = stateQuery a y → plan m parseSql sql = some (.stateGet a y)
  bare : ¬Bare sql.toList → ∀ q, plan m parseSql sql = some q → q.isLookup = false

/-- What a query must be for its plan to be faithful: the names stand at offsets of the text itself,
the literals survive the cuts, and only a bare call looks like a call. -/
structure Plain (m : CaseMap) (sql : String) : Prop where
  searchAligned : mentions m (trimmed sql) "ECPHORIA_SEARCH".toList = true →
    Aligned m (trimmed sql) "ecphoria_search".toList
  stateAligned : ¬Called m (trimmed sql) "ecphoria_search" "ECPHORIA_SEARCH" →
    mentions m (trimmed sql) "ECPHORIA_STATE".toList = true → Aligned m (trimmed sql) "ecphoria_state".toList
  search : ∀ t k, k < 2 ^ 64 → sql = searchQuery t k → Quotable t.toList ∧ ',' ∉ t.toList ∧ ')' ∉ t.toList
  state : ∀ a y, sql = stateQuery a y → ¬Called m (trimmed sql) "ecphoria_search" "ECPHORIA_SEARCH" ∧
    (Quotable a.toList ∧ ',' ∉ a.toList ∧ ')' ∉ a.toList) ∧ Quotable y.toList ∧ ')' ∉ y.toList
  bare : ¬Bare sql.toList → ¬Called m (trimmed sql) "ecphoria_search" "ECPHORIA_SEARCH" ∧
    ¬Called m (trimmed sql) "ecphoria_state" "ECPHORIA_STATE"

variable {m : CaseMap} {parseSql : List Char → Except String (List Statement)} {sql : String} {s : List Char}
  {name upper : String}

theorem call_cases (m : CaseMap) (s : List Char) (name upper : String) :
    (call m s name upper = none ∧ mentions m s upper.toList = true ∧ ¬Aligned m s name.toList) ∨
    (call m s name upper = some none ∧ ¬Called m s name upper) ∨
    ∃ args, call m s name upper = some (some args) ∧ Called m s name upper := by
  cases result : call m s name upper with
  | none => exact .inl ⟨rfl,call_eq_none.mp result⟩
  | some found =>
    cases found with
    | none =>
      refine .inr (.inl ⟨rfl,fun called => ?_⟩)
      obtain ⟨args,other⟩ := called_iff.mp called
      rw [result] at other
      cases other
    | some args => exact .inr (.inr ⟨args,rfl,called_iff.mpr ⟨args,result⟩⟩)

theorem aligned_of_call (called : call m s name upper ≠ none) (mentioned : mentions m s upper.toList = true) :
    Aligned m s name.toList := by
  by_contra apart
  exact called (call_eq_none.mpr ⟨mentioned,apart⟩)

theorem statementPlan_isLookup : (statementPlan parseSql s).isLookup = false := by
  unfold statementPlan
  split <;> rfl

theorem plan_cases (m : CaseMap) (parseSql : List Char → Except String (List Statement)) (sql : String) :
    (plan m parseSql sql = none ∧ ((mentions m (trimmed sql) "ECPHORIA_SEARCH".toList = true ∧
      ¬Aligned m (trimmed sql) "ecphoria_search".toList) ∨
      (¬Called m (trimmed sql) "ecphoria_search" "ECPHORIA_SEARCH" ∧
        mentions m (trimmed sql) "ECPHORIA_STATE".toList = true ∧ ¬Aligned m (trimmed sql) "ecphoria_state".toList))) ∨
    (∃ q, plan m parseSql sql = some q ∧ call m (trimmed sql) "ecphoria_search" "ECPHORIA_SEARCH" ≠ none ∧
      (¬Called m (trimmed sql) "ecphoria_search" "ECPHORIA_SEARCH" →
        call m (trimmed sql) "ecphoria_state" "ECPHORIA_STATE" ≠ none) ∧
      (q.isLookup = true ↔ Called m (trimmed sql) "ecphoria_search" "ECPHORIA_SEARCH" ∨
        Called m (trimmed sql) "ecphoria_state" "ECPHORIA_STATE")) := by
  rcases call_cases m (trimmed sql) "ecphoria_search" "ECPHORIA_SEARCH" with
    ⟨panics,apart⟩ | ⟨passed,uncalled⟩ | ⟨args,found,called⟩
  · exact .inl ⟨plan_of_panic panics,.inl apart⟩
  · rcases call_cases m (trimmed sql) "ecphoria_state" "ECPHORIA_STATE" with
      ⟨panics,apart⟩ | ⟨also,neither⟩ | ⟨args,found,called⟩
    · exact .inl ⟨plan_of_later_panic passed panics,.inr ⟨uncalled,apart⟩⟩
    · refine .inr ⟨_,plan_of_neither passed also,by rw [passed]; simp,fun _ => by rw [also]; simp,?_⟩
      rw [statementPlan_isLookup]
      simp [uncalled,neither]
    · refine .inr ⟨_,plan_of_state passed found,by rw [passed]; simp,fun _ => by rw [found]; simp,?_⟩
      simp [statePlan,QueryPlan.isLookup,called]
  · refine .inr ⟨_,plan_of_search found,by rw [found]; simp,fun uncalled => absurd called uncalled,?_⟩
    simp [searchPlan,QueryPlan.isLookup,called]

theorem Faithful.plain (faithful : Faithful m parseSql sql) : Plain m sql := by
  rcases plan_cases m parseSql sql with ⟨panics,-⟩ | ⟨q,planned,search,state,lookup⟩
  · exact absurd panics faithful.total
  constructor
  · exact aligned_of_call search
  · exact fun uncalled => aligned_of_call (state uncalled)
  · rintro t k small rfl
    exact (plan_searchQuery_iff small).mp (faithful.search t k small rfl)
  · rintro a y rfl
    obtain ⟨passed,clean⟩ := plan_stateQuery_iff.mp (faithful.state a y rfl)
    refine ⟨fun called => ?_,clean⟩
    obtain ⟨args,found⟩ := called_iff.mp called
    rw [passed] at found
    cases found
  · intro other
    have plain := faithful.bare other q planned
    rw [← Bool.not_eq_true,lookup,not_or] at plain
    exact plain

theorem Plain.faithful (plain : Plain m sql) : Faithful m parseSql sql := by
  rcases plan_cases m parseSql sql with ⟨-,⟨mentioned,apart⟩ | ⟨uncalled,mentioned,apart⟩⟩ | ⟨q,planned,search,-,lookup⟩
  · exact absurd (plain.searchAligned mentioned) apart
  · exact absurd (plain.stateAligned uncalled mentioned) apart
  constructor
  · rw [planned]
    simp
  · rintro t k small rfl
    exact (plan_searchQuery_iff small).mpr (plain.search t k small rfl)
  · rintro a y rfl
    obtain ⟨uncalled,clean⟩ := plain.state a y rfl
    refine plan_stateQuery_iff.mpr ⟨?_,clean⟩
    rcases call_cases m (trimmed (stateQuery a y)) "ecphoria_search" "ECPHORIA_SEARCH" with
      ⟨panics,-⟩ | ⟨passed,-⟩ | ⟨args,-,called⟩
    · exact absurd panics search
    · exact passed
    · exact absurd called uncalled
  · intro other r made
    rw [planned,Option.some.injEq] at made
    subst made
    rw [← Bool.not_eq_true,lookup,not_or]
    exact plain.bare other

/-- ASCII, and the dotted capital I, which is longer in lower case. -/
def CaseMap.dotted : CaseMap where
  lower c := if c = 'İ' then ['i','\u0307'] else [c.toLower]
  upper c := [c.toUpper]
  cased := Char.isAlpha
  caseIgnorable _ := false
  lower_ascii c ascii := by
    rw [if_neg]
    rintro rfl
    exact absurd ascii (by decide)
  upper_ascii _ _ := rfl

end Faithful

end Ecphoria.Query
