import Mathlib.Data.List.Basic

/-! Texts with tags: how they are written, and what a reader finds in them. A text in which the signs of the markup are escaped
has no tags of its own and is read as it was. -/
namespace Ecphoria.Library

abbrev Tagged := List Char × List Char

def replaced (c : Char) (new : List Char) (text : List Char) : List Char := text.flatMap (fun d => if d = c then new else [d])

def escaped (text : List Char) : List Char :=
  replaced '>' ['&','g','t',';'] (replaced '<' ['&','l','t',';'] (replaced '&' ['&','a','m','p',';'] text))

def unescaped : List Char → List Char
  | '&' :: 'a' :: 'm' :: 'p' :: ';' :: rest => '&' :: unescaped rest
  | '&' :: 'l' :: 't' :: ';' :: rest => '<' :: unescaped rest
  | '&' :: 'g' :: 't' :: ';' :: rest => '>' :: unescaped rest
  | c :: rest => c :: unescaped rest
  | [] => []

def written (parts : List Tagged) : List Char := parts.flatMap (fun part => '<' :: part.1 ++ '>' :: part.2)

def readPart (piece : List Char) : Tagged := (piece.takeWhile (· ≠ '>'),unescaped ((piece.dropWhile (· ≠ '>')).drop 1))

def tags (text : List Char) : List Tagged := ((text.splitOn '<').drop 1).map readPart

/-- A tag that is one tag, before a text that has none. -/
def Tagged.Plain (part : Tagged) : Prop := '<' ∉ part.1 ∧ '>' ∉ part.1 ∧ '<' ∉ part.2

def entity (c : Char) : List Char :=
  if c = '&' then ['&','a','m','p',';'] else if c = '<' then ['&','l','t',';'] else if c = '>' then ['&','g','t',';'] else [c]

theorem escaped_eq (text : List Char) : escaped text = text.flatMap entity := by
  simp only [escaped,replaced,List.flatMap_assoc]
  refine congrArg (text.flatMap ·) (funext fun c => ?_)
  unfold entity
  by_cases amp : c = '&'
  · rw [amp]
    rfl
  · by_cases less : c = '<'
    · rw [less]
      rfl
    · simp [amp,less]

theorem unescaped_entity (c : Char) (rest : List Char) : unescaped (entity c ++ rest) = c :: unescaped rest := by
  unfold entity
  split
  next amp => rw [amp]; rfl
  next other =>
    split
    next less => rw [less]; rfl
    next =>
      split
      next more => rw [more]; rfl
      next =>
        rw [List.singleton_append,unescaped]
        · exact fun _ same _ => other same
        · exact fun _ same _ => other same
        · exact fun _ same _ => other same

theorem unescaped_escaped (text : List Char) : unescaped (escaped text) = text := by
  rw [escaped_eq]
  induction text with
  | nil => rfl
  | cons c text ih => rw [List.flatMap_cons,unescaped_entity,ih]

theorem escaped_plain (text : List Char) : '<' ∉ escaped text := by
  rw [escaped_eq]
  intro inside
  obtain ⟨c,_,found⟩ := List.mem_flatMap.mp inside
  unfold entity at found
  split at found
  next => simp at found
  next =>
    split at found
    next => simp at found
    next plain =>
      split at found
      next => simp at found
      next => exact plain (List.mem_singleton.mp found).symm

theorem readPart_written {part : Tagged} (plain : part.Plain) : readPart (part.1 ++ '>' :: part.2) = (part.1,unescaped part.2) := by
  have own : ∀ c ∈ part.1, decide (c ≠ '>') = true := fun c inside => decide_eq_true (fun same => plain.2.1 (same ▸ inside))
  unfold readPart
  rw [List.takeWhile_append_of_pos own,List.dropWhile_append_of_pos own]
  simp

theorem splitOn_written {own : List Char} (plain : '<' ∉ own) (parts : List Tagged) (all : ∀ part ∈ parts, part.Plain) :
    (own ++ written parts).splitOn '<' = own :: parts.map (fun part => part.1 ++ '>' :: part.2) := by
  induction parts generalizing own with
  | nil => exact (congrArg (List.splitOn '<') (List.append_nil own)).trans (List.splitOn_eq_singleton plain)
  | cons part parts ih =>
    obtain ⟨here,rest⟩ := List.forall_mem_cons.mp all
    have next : '<' ∉ part.1 ++ '>' :: part.2 := by
      simp only [List.mem_append,List.mem_cons,not_or]
      exact ⟨here.1,by decide,here.2.2⟩
    have shape : own ++ written (part :: parts) = own ++ '<' :: ((part.1 ++ '>' :: part.2) ++ written parts) := by simp [written]
    rw [shape,List.splitOn_append_cons_self,List.splitOn_eq_singleton plain,ih next rest]
    rfl

theorem tags_append (first second : List Char) : tags (first ++ '<' :: second) = tags first ++ tags ('<' :: second) := by
  have own : ('<' :: second).splitOn '<' = [] :: second.splitOn '<' := List.splitOn_append_cons_self [] second
  rw [tags,tags,tags,own,List.splitOn_append_cons_self,List.drop_append_of_le_length,List.map_append]
  · rfl
  · exact List.length_pos_iff.mpr (List.splitOn_ne_nil '<' first)

theorem tags_written (parts : List Tagged) (all : ∀ part ∈ parts, part.Plain) :
    tags (written parts) = parts.map (fun part => (part.1,unescaped part.2)) := by
  have pieces := splitOn_written List.not_mem_nil parts all
  rw [List.nil_append] at pieces
  rw [tags,pieces,List.drop_one,List.tail_cons,List.map_map]
  exact List.map_congr_left fun part inside => readPart_written (all part inside)

end Ecphoria.Library
