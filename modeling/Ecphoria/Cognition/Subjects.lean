import Ecphoria.Engine.State

/-! Subjects as keys. A subject is stored with its whitespace collapsed and in lower case;
what is relied on of the lowercase function is stated once, and with it a stored subject
normalises to itself and a path stays in front of what is joined to it by `#`. -/
namespace Ecphoria

/-- `str::to_lowercase`, as far as the keys rest on it: it is idempotent, leaves words, spaces and `#` where they
are, and makes no `#`. -/
structure Env.Lowercases (env : Env) : Prop where
  idem : ∀ s, env.toLowercase (env.toLowercase s) = env.toLowercase s
  words : ∀ s, splitWhitespace (env.toLowercase s) = (splitWhitespace s).map env.toLowercase
  join : ∀ words, env.toLowercase (String.intercalate " " words) =
    String.intercalate " " (words.map env.toLowercase)
  hash : ∀ a b, env.toLowercase (a ++ "#" ++ b) = env.toLowercase a ++ "#" ++ env.toLowercase b
  unhashed : ∀ s, '#' ∉ s.toList → '#' ∉ (env.toLowercase s).toList

def IsWord (word : String) : Prop := word ≠ "" ∧ ∀ c ∈ word.toList, isWhitespace c = false

private theorem splitOnP_parts {α : Type} (p : α → Bool) (items : List α) :
    ∀ part ∈ items.splitOnP p, ∀ x ∈ part, p x = false ∧ x ∈ items := by
  induction items with
  | nil => simp [List.splitOnP_nil]
  | cons item items ih =>
    have later {x : α} (given : p x = false ∧ x ∈ items) : p x = false ∧ x ∈ item :: items :=
      ⟨given.1,List.mem_cons_of_mem item given.2⟩
    rw [List.splitOnP_cons_eq_if_modifyHead]
    split
    next =>
      intro part inside
      rcases List.mem_cons.mp inside with rfl | rest
      · simp
      · exact fun x member => later (ih part rest x member)
    next plain =>
      cases parts : items.splitOnP p with
      | nil => exact absurd parts (List.splitOnP_ne_nil p items)
      | cons head tail =>
        rw [parts] at ih
        intro part inside x member
        rcases List.mem_cons.mp inside with rfl | rest
        · rcases List.mem_cons.mp member with rfl | among
          · exact ⟨by simpa using plain,List.mem_cons_self⟩
          · exact later (ih head List.mem_cons_self x among)
        · exact later (ih part (List.mem_cons_of_mem head rest) x member)

theorem isWord_of_mem {s word : String} (inside : word ∈ splitWhitespace s) : IsWord word := by
  obtain ⟨part,listed,rfl⟩ := List.mem_map.mp inside
  obtain ⟨member,some⟩ := List.mem_filter.mp listed
  refine ⟨?_,?_⟩
  · intro empty
    have none : part = [] := by simpa using congrArg String.toList empty
    simp [none] at some
  · rw [String.toList_ofList]
    exact fun c among => (splitOnP_parts isWhitespace s.toList part member c among).1

theorem mem_of_mem_word {s word : String} (inside : word ∈ splitWhitespace s) {c : Char} (among : c ∈ word.toList) :
    c ∈ s.toList := by
  obtain ⟨part,listed,rfl⟩ := List.mem_map.mp inside
  rw [String.toList_ofList] at among
  exact (splitOnP_parts isWhitespace s.toList part (List.mem_filter.mp listed).1 c among).2

theorem splitWhitespace_cons {word rest : String} (plain : IsWord word) :
    splitWhitespace (word ++ " " ++ rest) = word :: splitWhitespace rest := by
  have some : word.toList ≠ [] := by
    intro empty
    exact plain.1 (String.toList_inj.mp empty)
  have cut : (word ++ " " ++ rest).toList.splitOnP isWhitespace = word.toList :: rest.toList.splitOnP isWhitespace := by
    have shape : (word ++ " " ++ rest).toList = word.toList ++ ' ' :: rest.toList := by simp
    rw [shape]
    exact List.splitOnP_append_cons_of_forall_mem plain.2 ' ' (by decide) _
  rw [splitWhitespace,cut,List.filter_cons_of_pos (by simpa using some),List.map_cons,String.ofList_toList]
  rfl

theorem splitWhitespace_word {word : String} (plain : IsWord word) : splitWhitespace word = [word] := by
  have some : word.toList ≠ [] := by
    intro empty
    exact plain.1 (String.toList_inj.mp empty)
  rw [splitWhitespace,List.splitOnP_eq_singleton plain.2,List.filter_cons_of_pos (by simpa using some)]
  simp

theorem splitWhitespace_join {words : List String} (plain : ∀ word ∈ words, IsWord word) :
    splitWhitespace (String.intercalate " " words) = words := by
  induction words with
  | nil => rfl
  | cons word words ih =>
    have first := plain word List.mem_cons_self
    cases words with
    | nil => rw [String.intercalate_singleton,splitWhitespace_word first]
    | cons next rest =>
      rw [String.intercalate_cons_cons,splitWhitespace_cons first,
        ih (fun other inside => plain other (List.mem_cons_of_mem word inside))]

/-- What is joined to the path by `#` follows it at once in the stored subject: the path does not end in whitespace, or
is blank. -/
def PathKept (path : String) : Prop :=
  (∀ c ∈ path.toList.getLast?, isWhitespace c = false) ∨ ∀ c ∈ path.toList, isWhitespace c = true

instance (path : String) : Decidable (PathKept path) :=
  decidable_of_iff (path.toList.getLast?.all (fun c => !isWhitespace c) = true ∨ path.toList.all isWhitespace = true) (by
    rw [PathKept]
    cases path.toList.getLast? with
    | none => simp
    | some c => simp)

theorem intercalate_append_singleton {words : List String} (some : words ≠ []) (last : String) :
    String.intercalate " " (words ++ [last]) = String.intercalate " " words ++ " " ++ last := by
  induction words with
  | nil => exact absurd rfl some
  | cons word words ih =>
    cases words with
    | nil => simp [String.intercalate_cons_cons]
    | cons next rest =>
      rw [List.cons_append,List.cons_append,String.intercalate_cons_cons,← List.cons_append,ih (by simp),
        String.intercalate_cons_cons]
      simp [String.append_assoc]

theorem intercalate_cut (before after : List String) (left right : String) :
    ∃ tail, String.intercalate " " (before ++ (left ++ right) :: after) =
      String.intercalate " " (before ++ [left]) ++ right ++ tail := by
  induction before with
  | nil =>
    cases after with
    | nil => exact ⟨"",by simp⟩
    | cons next rest =>
      refine ⟨" " ++ String.intercalate " " (next :: rest),?_⟩
      simp [String.intercalate_cons_cons,String.append_assoc]
  | cons word words ih =>
    obtain ⟨tail,joined⟩ := ih
    refine ⟨tail,?_⟩
    cases words with
    | nil =>
      rw [List.nil_append] at joined
      rw [List.cons_append,List.nil_append,String.intercalate_cons_cons,joined]
      simp [String.intercalate_cons_cons,String.append_assoc]
    | cons next rest =>
      simp only [List.cons_append,String.intercalate_cons_cons,String.append_assoc] at joined ⊢
      rw [joined]

theorem exists_last_piece (text : List Char) : ∃ piece : List Char, (∀ c ∈ piece, isWhitespace c = false) ∧
    (text = piece ∨ ∃ lead sep, isWhitespace sep = true ∧ text = lead ++ sep :: piece) := by
  induction text with
  | nil => exact ⟨[],by simp,Or.inl rfl⟩
  | cons c text ih =>
    obtain ⟨piece,plain,whole | ⟨lead,sep,space,parts⟩⟩ := ih
    · cases space : isWhitespace c with
      | true => exact ⟨piece,plain,Or.inr ⟨[],c,space,by rw [whole]; rfl⟩⟩
      | false =>
        refine ⟨c :: piece,?_,Or.inl (by rw [whole])⟩
        intro d inside
        rcases List.mem_cons.mp inside with rfl | later
        · exact space
        · exact plain d later
    · exact ⟨piece,plain,Or.inr ⟨c :: lead,sep,space,by rw [parts]; rfl⟩⟩

theorem exists_first_piece (text : List Char) : ∃ piece : List Char, (∀ c ∈ piece, isWhitespace c = false) ∧
    (text = piece ∨ ∃ sep tail, isWhitespace sep = true ∧ text = piece ++ sep :: tail) := by
  induction text with
  | nil => exact ⟨[],by simp,Or.inl rfl⟩
  | cons c text ih =>
    cases space : isWhitespace c with
    | true => exact ⟨[],by simp,Or.inr ⟨c,text,space,rfl⟩⟩
    | false =>
      obtain ⟨piece,plain,rest⟩ := ih
      refine ⟨c :: piece,?_,?_⟩
      · intro d inside
        rcases List.mem_cons.mp inside with rfl | later
        · exact space
        · exact plain d later
      · rcases rest with rfl | ⟨sep,tail,after,rfl⟩
        · exact Or.inl rfl
        · exact Or.inr ⟨sep,tail,after,rfl⟩

theorem splitWhitespace_append (lead rest : List Char) {sep : Char} (space : isWhitespace sep = true) :
    splitWhitespace (String.ofList (lead ++ sep :: rest)) =
      splitWhitespace (String.ofList lead) ++ splitWhitespace (String.ofList rest) := by
  simp only [splitWhitespace,String.toList_ofList,List.splitOnP_append_cons lead rest space,List.filter_append,
    List.map_append]

theorem splitWhitespace_piece {piece : List Char} (plain : ∀ c ∈ piece, isWhitespace c = false) :
    splitWhitespace (String.ofList piece) = if piece = [] then [] else [String.ofList piece] := by
  rw [splitWhitespace,String.toList_ofList,List.splitOnP_eq_singleton plain]
  by_cases none : piece = [] <;> simp [none]

theorem splitWhitespace_eq_nil (text : List Char) :
    splitWhitespace (String.ofList text) = [] ↔ ∀ c ∈ text, isWhitespace c = true := by
  induction text with
  | nil => simp [splitWhitespace,List.splitOnP_nil]
  | cons c text ih =>
    rw [splitWhitespace,String.toList_ofList] at ih ⊢
    rw [List.splitOnP_cons_eq_if_modifyHead]
    cases space : isWhitespace c with
    | true => simpa [space] using ih
    | false =>
      cases parts : text.splitOnP isWhitespace with
      | nil => exact absurd parts (List.splitOnP_ne_nil _ _)
      | cons first rest => simp [space]

/-- The words of a path with something joined to it: `#` continues the last word, or starts one when the path ends in
whitespace. -/
theorem splitWhitespace_hash (path rest : List Char) : ∃ before piece first after,
    splitWhitespace (String.ofList path) = before ++ (if piece = [] then [] else [String.ofList piece]) ∧
    splitWhitespace (String.ofList (path ++ '#' :: rest)) = before ++ String.ofList (piece ++ '#' :: first) :: after ∧
    (PathKept (String.ofList path) ↔ piece ≠ [] ∨ before = []) := by
  have head : ∃ first after, ∀ piece : List Char, (∀ c ∈ piece, isWhitespace c = false) →
      splitWhitespace (String.ofList (piece ++ '#' :: rest)) = String.ofList (piece ++ '#' :: first) :: after := by
    have word {piece first : List Char} (plain : ∀ c ∈ piece, isWhitespace c = false)
        (more : ∀ c ∈ first, isWhitespace c = false) : ∀ c ∈ piece ++ '#' :: first, isWhitespace c = false := by
      intro c inside
      rcases List.mem_append.mp inside with left | right
      · exact plain c left
      · rcases List.mem_cons.mp right with rfl | later
        · rfl
        · exact more c later
    have some (piece first : List Char) : piece ++ '#' :: first ≠ [] := by simp
    obtain ⟨first,more,rfl | ⟨sep,tail,space,rfl⟩⟩ := exists_first_piece rest
    · refine ⟨rest,[],?_⟩
      intro piece plain
      rw [splitWhitespace_piece (word plain more),if_neg (some _ _)]
    · refine ⟨first,splitWhitespace (String.ofList tail),?_⟩
      intro piece plain
      have parts : piece ++ '#' :: (first ++ sep :: tail) = (piece ++ '#' :: first) ++ sep :: tail := by simp
      rw [parts,splitWhitespace_append _ _ space,splitWhitespace_piece (word plain more),if_neg (some _ _)]
      rfl
  obtain ⟨first,after,joined⟩ := head
  obtain ⟨piece,plain,rfl | ⟨lead,sep,space,rfl⟩⟩ := exists_last_piece path
  · refine ⟨[],path,first,after,?_,?_,?_⟩
    · rw [splitWhitespace_piece plain,List.nil_append]
    · exact joined path plain
    · refine iff_of_true (Or.inl ?_) (Or.inr rfl)
      intro c inside
      rw [String.toList_ofList] at inside
      exact plain c (List.mem_of_getLast? inside)
  · refine ⟨splitWhitespace (String.ofList lead),piece,first,after,?_,?_,?_⟩
    · rw [splitWhitespace_append lead piece space,splitWhitespace_piece plain]
    · rw [List.append_assoc,List.cons_append,splitWhitespace_append lead _ space,joined piece plain]
    · rw [PathKept,String.toList_ofList,splitWhitespace_eq_nil]
      cases piece with
      | nil =>
        simp only [List.getLast?_concat,ne_eq,not_true_eq_false,false_or]
        constructor
        · intro either
          rcases either with last | blank
          · cases space.symm.trans (last sep rfl)
          · exact fun c inside => blank c (List.mem_append_left _ inside)
        · intro blank
          refine Or.inr ?_
          intro c inside
          rcases List.mem_append.mp inside with left | right
          · exact blank c left
          · rw [List.mem_singleton.mp right]
            exact space
      | cons c rest =>
        refine iff_of_true (Or.inl ?_) (Or.inl (by simp))
        intro d last
        have inside : d ∈ c :: rest := by
          rw [List.getLast?_append_of_ne_nil _ (by simp),List.getLast?_cons_cons] at last
          exact List.mem_of_getLast? last
        exact plain d inside

section
variable {env : Env}

theorem normalizeSubject_idem (lowercases : env.Lowercases) (s : String) :
    normalizeSubject env (normalizeSubject env s) = normalizeSubject env s := by
  have words : splitWhitespace (normalizeSubject env s) = (splitWhitespace s).map env.toLowercase := by
    rw [normalizeSubject,lowercases.words,splitWhitespace_join (fun word inside => isWord_of_mem inside)]
  have lower : env.toLowercase ∘ env.toLowercase = env.toLowercase := funext lowercases.idem
  rw [normalizeSubject,words,lowercases.join,List.map_map,lower,← lowercases.join]
  rfl

theorem normalizeSubject_canonical (lowercases : env.Lowercases) {raw : Option String} {subject : String}
    (made : canonicalSubject env raw = some subject) : normalizeSubject env subject = subject := by
  obtain ⟨mapped,_⟩ := Option.filter_eq_some_iff.mp made
  obtain ⟨given,_,rfl⟩ := Option.map_eq_some_iff.mp mapped
  exact normalizeSubject_idem lowercases given

theorem normalizeSubject_hash (lowercases : env.Lowercases) (path rest : String) :
    ∃ tail, normalizeSubject env (path ++ "#" ++ rest) =
      normalizeSubject env path ++ (if PathKept path then "" else " ") ++ "#" ++ tail := by
  obtain ⟨before,piece,first,after,words,joined,kept⟩ := splitWhitespace_hash path.toList rest.toList
  have whole : String.ofList (path.toList ++ '#' :: rest.toList) = path ++ "#" ++ rest := by
    apply String.toList_inj.mp
    simp
  have last : String.ofList (piece ++ '#' :: first) = String.ofList piece ++ ("#" ++ String.ofList first) := by
    apply String.toList_inj.mp
    simp
  rw [String.ofList_toList] at words kept
  obtain ⟨tail,cut⟩ := intercalate_cut before after (String.ofList piece) ("#" ++ String.ofList first)
  have empty : env.toLowercase "" = "" := lowercases.join []
  have lower : env.toLowercase (String.intercalate " " (before ++ [String.ofList piece])) =
      normalizeSubject env path ++ (if PathKept path then "" else " ") := by
    rw [normalizeSubject,words]
    by_cases none : piece = []
    · subst none
      rw [if_pos rfl,List.append_nil]
      by_cases blank : before = []
      · rw [if_pos (kept.mpr (Or.inr blank)),blank]
        simp [empty]
      · rw [if_neg (fun given => (kept.mp given).elim (fun some => some rfl) blank)]
        rw [lowercases.join,List.map_append,List.map_singleton,
          intercalate_append_singleton (by simpa using blank),← lowercases.join]
        simp [empty]
    · rw [if_neg none,if_pos (kept.mpr (Or.inl none)),String.append_empty]
  refine ⟨env.toLowercase (String.ofList first ++ tail),?_⟩
  rw [normalizeSubject,← whole,joined,last,cut,← lower,← lowercases.hash]
  simp only [String.append_assoc]

theorem normalizeSubject_ne_empty (lowercases : env.Lowercases) {s : String}
    (some : ∃ c ∈ s.toList, isWhitespace c = false) : normalizeSubject env s ≠ "" := by
  intro empty
  have words : splitWhitespace (normalizeSubject env s) = (splitWhitespace s).map env.toLowercase := by
    rw [normalizeSubject,lowercases.words,splitWhitespace_join (fun word inside => isWord_of_mem inside)]
  have blank : splitWhitespace (String.ofList "".toList) = [] := (splitWhitespace_eq_nil _).mpr (by simp)
  rw [String.ofList_toList] at blank
  rw [empty,blank] at words
  have none : splitWhitespace (String.ofList s.toList) = [] := by
    rw [String.ofList_toList]
    exact List.map_eq_nil_iff.mp words.symm
  obtain ⟨c,inside,plain⟩ := some
  cases plain.symm.trans ((splitWhitespace_eq_nil _).mp none c inside)

theorem mem_intercalate {words : List String} {c : Char} (inside : c ∈ (String.intercalate " " words).toList) :
    c = ' ' ∨ ∃ word ∈ words, c ∈ word.toList := by
  induction words with
  | nil => simp at inside
  | cons word words ih =>
    cases words with
    | nil => exact Or.inr ⟨word,by simp,by simpa using inside⟩
    | cons next rest =>
      rw [String.intercalate_cons_cons,String.toList_append,String.toList_append] at inside
      rcases List.mem_append.mp inside with first | later
      · rcases List.mem_append.mp first with own | space
        · exact Or.inr ⟨word,by simp,own⟩
        · exact Or.inl (by simpa using space)
      · rcases ih later with space | ⟨other,listed,among⟩
        · exact Or.inl space
        · exact Or.inr ⟨other,List.mem_cons_of_mem word listed,among⟩

theorem hash_mem_normalizeSubject (lowercases : env.Lowercases) (s : String) :
    '#' ∈ (normalizeSubject env s).toList ↔ '#' ∈ s.toList := by
  constructor
  · intro inside
    by_contra absent
    refine lowercases.unhashed _ ?_ inside
    intro joined
    rcases mem_intercalate joined with space | ⟨word,listed,among⟩
    · exact absurd space (by decide)
    · exact absent (mem_of_mem_word listed among)
  · intro inside
    obtain ⟨before,after,parts⟩ := List.append_of_mem inside
    have whole : s = String.ofList before ++ "#" ++ String.ofList after := by
      apply String.toList_inj.mp
      simp [parts]
    obtain ⟨tail,stored⟩ := normalizeSubject_hash lowercases (String.ofList before) (String.ofList after)
    rw [whole,stored]
    simp

end

theorem toLower_cases (c : Char) :
    c.toLower = c ∧ ¬(65 ≤ c.toNat ∧ c.toNat ≤ 90) ∨ 65 ≤ c.toNat ∧ c.toNat ≤ 90 ∧ c.toLower.toNat = c.toNat + 32 := by
  unfold Char.toLower
  split
  next upper =>
    have low : 65 ≤ c.toNat := UInt32.le_iff_toNat_le.mp upper.1
    have high : c.toNat ≤ 90 := UInt32.le_iff_toNat_le.mp upper.2
    have step : ('a'.val - 'A'.val).toNat = 32 := rfl
    have value : c.val.toNat = c.toNat := rfl
    refine Or.inr ⟨low,high,?_⟩
    change (c.val + ('a'.val - 'A'.val)).toNat = c.toNat + 32
    rw [UInt32.toNat_add]
    exact Nat.mod_eq_of_lt (by omega)
  next other =>
    refine Or.inl ⟨rfl,?_⟩
    intro both
    exact other ⟨UInt32.le_iff_toNat_le.mpr both.1,UInt32.le_iff_toNat_le.mpr both.2⟩

private theorem isWhitespace_toLower (c : Char) : isWhitespace c.toLower = isWhitespace c := by
  rcases toLower_cases c with ⟨same,_⟩ | ⟨low,high,lowered⟩
  · rw [same]
  · rw [Bool.eq_iff_iff]
    simp only [isWhitespace,lowered,Bool.or_eq_true,Bool.and_eq_true,decide_eq_true_eq,beq_iff_eq]
    omega

private theorem splitOnP_map {α β : Type} (p : β → Bool) (f : α → β) (items : List α) :
    (items.map f).splitOnP p = (items.splitOnP (p ∘ f)).map (List.map f) := by
  induction items with
  | nil => rfl
  | cons item items ih =>
    rw [List.map_cons,List.splitOnP_cons_eq_if_modifyHead,List.splitOnP_cons_eq_if_modifyHead,ih]
    cases parts : items.splitOnP (p ∘ f) with
    | nil => exact absurd parts (List.splitOnP_ne_nil _ _)
    | cons head tail =>
      cases cut : p (f item) with
      | true => simp [cut]
      | false => simp [cut]

theorem ascii_lowercases : Env.ascii.Lowercases := by
  have chars (s : String) : (Env.ascii.toLowercase s).toList = s.toList.map Char.toLower := String.toList_ofList
  have append (a b : String) : Env.ascii.toLowercase (a ++ b) = Env.ascii.toLowercase a ++ Env.ascii.toLowercase b := by
    simp [Env.ascii]
  refine ⟨?_,?_,?_,?_,?_⟩
  · intro s
    apply String.toList_inj.mp
    rw [chars,chars,List.map_map]
    refine List.map_congr_left ?_
    intro c _
    rcases toLower_cases c with ⟨same,_⟩ | ⟨low,high,lowered⟩
    · rw [Function.comp_apply,same,same]
    · rcases toLower_cases c.toLower with ⟨again,_⟩ | ⟨below,above,_⟩
      · exact again
      · omega
  · intro s
    rw [splitWhitespace,chars,splitOnP_map,splitWhitespace]
    have same : isWhitespace ∘ Char.toLower = isWhitespace := funext isWhitespace_toLower
    rw [same,List.filter_map,List.map_map,List.map_map]
    have kept : ((fun word : List Char => !word.isEmpty) ∘ List.map Char.toLower) = fun word => !word.isEmpty := by
      funext word
      simp
    rw [kept]
    refine List.map_congr_left ?_
    intro word _
    simp [Env.ascii]
  · intro words
    induction words with
    | nil => rfl
    | cons word words ih =>
      cases words with
      | nil => simp
      | cons next rest =>
        have space : Env.ascii.toLowercase " " = " " := by decide
        rw [String.intercalate_cons_cons,List.map_cons,List.map_cons,String.intercalate_cons_cons,append,append,ih,space,
          List.map_cons]
  · intro a b
    have hash : Env.ascii.toLowercase "#" = "#" := by decide
    rw [append,append,hash]
  · intro s absent inside
    rw [chars] at inside
    obtain ⟨c,listed,made⟩ := List.mem_map.mp inside
    rcases toLower_cases c with ⟨same,_⟩ | ⟨low,high,lowered⟩
    · exact absent (made ▸ same.symm ▸ listed)
    · have value : c.toLower.toNat = 35 := by
        rw [made]
        rfl
      omega

end Ecphoria
