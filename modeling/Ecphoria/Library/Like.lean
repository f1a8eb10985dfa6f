import Mathlib.Data.List.Infix

/-! Wildcard patterns over folded characters and the `LIKE` operator of SQL: `%` stands
for any text, `_` for one character, and an escape character takes the next one literally.
Letters are compared through the fold. -/
namespace Ecphoria.Library

inductive Glob (κ : Type) where
  | many
  | one
  | lit (k : κ)
deriving DecidableEq,Repr

section
variable {α κ : Type} [DecidableEq κ] (fold : α → κ)

def globMatch : List (Glob κ) → List α → Bool
  | [],text => text.isEmpty
  | .many :: glob,text => text.tails.any (globMatch glob)
  | .one :: glob,text =>
    match text with
    | [] => false
    | _ :: rest => globMatch glob rest
  | .lit k :: glob,text =>
    match text with
    | [] => false
    | c :: rest => fold c = k && globMatch glob rest

variable {fold}

theorem globMatch_many {glob : List (Glob κ)} {text : List α} :
    globMatch fold (.many :: glob) text = true ↔ ∃ skipped rest, text = skipped ++ rest ∧ globMatch fold glob rest = true := by
  simp only [globMatch,List.any_eq_true,List.mem_tails]
  constructor
  · intro given
    obtain ⟨rest,⟨skipped,rfl⟩,found⟩ := given
    exact ⟨skipped,rest,rfl,found⟩
  · intro given
    obtain ⟨skipped,rest,rfl,found⟩ := given
    exact ⟨rest,⟨skipped,rfl⟩,found⟩

theorem globMatch_append {first second : List (Glob κ)} {text rest : List α}
    (left : globMatch fold first text = true) (right : globMatch fold second rest = true) :
    globMatch fold (first ++ second) (text ++ rest) = true := by
  induction first generalizing text with
  | nil =>
    cases List.isEmpty_iff.mp left
    exact right
  | cons piece first ih =>
    cases piece with
    | many =>
      obtain ⟨skipped,tail,rfl,found⟩ := globMatch_many.mp left
      exact globMatch_many.mpr ⟨skipped,tail ++ rest,List.append_assoc ..,ih found⟩
    | one =>
      cases text with
      | nil => cases left
      | cons c text => exact ih left
    | lit k =>
      cases text with
      | nil => cases left
      | cons c text =>
        simp only [globMatch,Bool.and_eq_true] at left
        simp only [List.cons_append,globMatch,Bool.and_eq_true]
        exact ⟨left.1,ih left.2⟩

theorem globMatch_lits_many (word : List κ) (text : List α) :
    globMatch fold (word.map .lit ++ [.many]) text = true ↔ word <+: text.map fold := by
  induction word generalizing text with
  | nil =>
    simp only [List.map_nil,List.nil_append, List.nil_prefix,iff_true]
    exact globMatch_many.mpr ⟨text,[],(List.append_nil text).symm,rfl⟩
  | cons k word ih =>
    cases text with
    | nil => simp [globMatch]
    | cons c text =>
      simp only [List.map_cons,List.cons_append,globMatch,Bool.and_eq_true,decide_eq_true_eq,ih,
        List.cons_prefix_cons]
      exact and_congr_left' eq_comm

theorem globMatch_leading {glob : List (Glob κ)} {text rest : List α}
    (found : globMatch fold glob (text ++ rest) = true) : ∃ leading, leading <+: glob ∧ globMatch fold leading text = true := by
  induction glob generalizing text with
  | nil =>
    obtain ⟨empty,_⟩ := List.append_eq_nil_iff.mp (List.isEmpty_iff.mp found)
    exact ⟨[],List.prefix_rfl,by simp [empty,globMatch]⟩
  | cons piece glob ih =>
    cases text with
    | nil => exact ⟨[], List.nil_prefix,rfl⟩
    | cons c text =>
      cases piece with
      | many =>
        obtain ⟨skipped,tail,parts,matched⟩ := globMatch_many.mp found
        rcases List.append_eq_append_iff.mp parts with ⟨extra,rfl,_⟩ | ⟨kept,same,rfl⟩
        · exact ⟨[.many],⟨glob,rfl⟩,globMatch_many.mpr ⟨c :: text,[],(List.append_nil _).symm,rfl⟩⟩
        · obtain ⟨leading,inside,short⟩ := ih matched
          exact ⟨.many :: leading,List.cons_prefix_cons.mpr ⟨rfl,inside⟩,globMatch_many.mpr ⟨skipped,kept,same,short⟩⟩
      | one =>
        obtain ⟨leading,inside,short⟩ := ih found
        exact ⟨.one :: leading,List.cons_prefix_cons.mpr ⟨rfl,inside⟩,short⟩
      | lit k =>
        simp only [List.cons_append,globMatch,Bool.and_eq_true] at found
        obtain ⟨leading,inside,short⟩ := ih found.2
        refine ⟨.lit k :: leading,List.cons_prefix_cons.mpr ⟨rfl,inside⟩,?_⟩
        simp only [globMatch,Bool.and_eq_true]
        exact ⟨found.1,short⟩

theorem globMatch_inhabited [Inhabited α] {glob : List (Glob κ)}
    (folded : ∀ k, .lit k ∈ glob → ∃ c, fold c = k) : ∃ text, globMatch fold glob text = true := by
  induction glob with
  | nil => exact ⟨[],rfl⟩
  | cons piece glob ih =>
    obtain ⟨text,found⟩ := ih (fun k inside => folded k (List.mem_cons_of_mem piece inside))
    cases piece with
    | many => exact ⟨text,globMatch_many.mpr ⟨[],text,rfl,found⟩⟩
    | one => exact ⟨default :: text,found⟩
    | lit k =>
      obtain ⟨c,same⟩ := folded k List.mem_cons_self
      exact ⟨c :: text,by simp [globMatch,same,found]⟩

theorem globMatch_completes [Inhabited α] {glob : List (Glob κ)} (folded : ∀ k, .lit k ∈ glob → ∃ c, fold c = k)
    (text : List α) : (∃ rest, globMatch fold glob (text ++ rest) = true) ↔
      ∃ leading ∈ glob.inits, globMatch fold leading text = true := by
  simp only [List.mem_inits]
  constructor
  · intro given
    obtain ⟨rest,found⟩ := given
    exact globMatch_leading found
  · intro given
    obtain ⟨leading,⟨after,rfl⟩,found⟩ := given
    obtain ⟨rest,matched⟩ := globMatch_inhabited (fun k inside => folded k (List.mem_append_right leading inside))
    exact ⟨rest,globMatch_append found matched⟩

end

def likePiece (c : Char) : Glob Char :=
  if c = '%' then .many else if c = '_' then .one else .lit c.toLower

/-- The pieces of a `LIKE` pattern, the flag set behind an escape character. A pattern that ends in its
escape character matches nothing. -/
def likePieces (escape : Option Char) : Bool → List Char → Option (List (Glob Char))
  | escaped,[] => if escaped then none else some []
  | true,c :: rest => (likePieces escape false rest).map (.lit c.toLower :: ·)
  | false,c :: rest =>
    if escape = some c then likePieces escape true rest
    else (likePieces escape false rest).map (likePiece c :: ·)

/-- `text LIKE pattern`, with `ESCAPE` when there is one: the case of ASCII letters does not count. -/
def like (escape : Option Char) (pattern text : String) : Bool :=
  match likePieces escape false pattern.toList with
  | none => false
  | some glob => globMatch Char.toLower glob text.toList

def replaceChar (c : Char) (into text : List Char) : List Char :=
  text.flatMap (fun d => if d = c then into else [d])

/-- A text made literal for `ESCAPE '\'`: the escape character first, then the two wildcards. -/
def likeEscape (text : List Char) : List Char :=
  replaceChar '_' ['\\','_'] (replaceChar '%' ['\\','%'] (replaceChar '\\' ['\\','\\'] text))

theorem likeEscape_cons (c : Char) (text : List Char) :
    likeEscape (c :: text) =
      (if c = '\\' ∨ c = '%' ∨ c = '_' then ['\\',c] else [c]) ++ likeEscape text := by
  by_cases back : c = '\\'
  · subst back
    simp [likeEscape,replaceChar]
  · by_cases percent : c = '%'
    · subst percent
      simp [likeEscape,replaceChar]
    · by_cases under : c = '_'
      · subst under
        simp [likeEscape,replaceChar]
      · simp [likeEscape,replaceChar,back,percent,under]

theorem likePieces_escape (text : List Char) :
    likePieces (some '\\') false (likeEscape text ++ ['%']) = some (text.map (fun c => .lit c.toLower) ++ [.many]) := by
  induction text with
  | nil => decide
  | cons c text ih =>
    rw [likeEscape_cons]
    by_cases special : c = '\\' ∨ c = '%' ∨ c = '_'
    · rw [if_pos special]
      simp [likePieces,ih]
    · rw [if_neg special]
      obtain ⟨back,percent,under⟩ := not_or.mp special |>.imp_right not_or.mp
      simp [likePieces,likePiece,ih,Ne.symm back,percent,under]

/-- An escaped text before a final `%` selects the texts that start with it, whatever the case of their
ASCII letters. -/
theorem like_escape (before text : String) :
    like (some '\\') (String.ofList (likeEscape before.toList ++ ['%'])) text = true ↔
      before.toList.map Char.toLower <+: text.toList.map Char.toLower := by
  rw [like,String.toList_ofList,likePieces_escape,← globMatch_lits_many,List.map_map]
  rfl

theorem likePieces_plain (pattern : List Char) : likePieces none false pattern = some (pattern.map likePiece) := by
  induction pattern with
  | nil => rfl
  | cons c pattern ih =>
    rw [likePieces,if_neg (by simp),ih]
    rfl

theorem like_plain (pattern text : String) :
    like none pattern text = globMatch Char.toLower (pattern.toList.map likePiece) text.toList := by
  rw [like,likePieces_plain]

private theorem globMatch_likePiece {pattern text : List Char} (same : text.map Char.toLower = pattern.map Char.toLower) :
    globMatch Char.toLower (pattern.map likePiece) text = true := by
  induction pattern generalizing text with
  | nil =>
    cases List.map_eq_nil_iff.mp same
    rfl
  | cons c pattern ih =>
    obtain ⟨d,rest,rfl,letter,later⟩ := List.map_eq_cons_iff.mp same
    rw [List.map_cons,likePiece]
    split
    next => exact globMatch_many.mpr ⟨[d],rest,rfl,ih later⟩
    next =>
      split
      next => exact ih later
      next => simp [globMatch,letter,ih later]

theorem like_of_starts {before text : String} (starts : before.toList.map Char.toLower <+: text.toList.map Char.toLower) :
    like none (before ++ "%") text = true := by
  obtain ⟨rest,parts⟩ := starts
  obtain ⟨first,second,whole,left,_⟩ := List.map_eq_append_iff.mp parts.symm
  rw [like_plain,String.toList_append,List.map_append,whole]
  refine globMatch_append (globMatch_likePiece left) ?_
  exact globMatch_many.mpr ⟨second,[],(List.append_nil second).symm,rfl⟩

/-- Some continuation of the text is like the pattern exactly when a leading part of the pattern takes
the text itself. -/
theorem like_completes (pattern text : String) :
    (∃ rest, like none pattern (text ++ rest) = true) ↔
      ∃ leading ∈ (pattern.toList.map likePiece).inits, globMatch Char.toLower leading text.toList = true := by
  have folded : ∀ k, .lit k ∈ pattern.toList.map likePiece → ∃ c : Char, c.toLower = k := by
    intro k inside
    obtain ⟨c,_,piece⟩ := List.mem_map.mp inside
    refine ⟨c,?_⟩
    unfold likePiece at piece
    split at piece
    next => cases piece
    next =>
      split at piece
      next => cases piece
      next => exact Glob.lit.inj piece
  rw [← globMatch_completes folded]
  simp only [like_plain,String.toList_append]
  constructor
  · intro given
    obtain ⟨rest,found⟩ := given
    exact ⟨rest.toList,found⟩
  · intro given
    obtain ⟨rest,found⟩ := given
    exact ⟨String.ofList rest,by rwa [String.toList_ofList]⟩

end Ecphoria.Library
