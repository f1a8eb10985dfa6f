import Ecphoria.Ingest.Pieces

/-! The rows of a text between its newlines: what reading them one by one gives for
joined lines, and how they change where blanks at the edges are trimmed. -/
namespace Ecphoria
namespace Chunk

def rows (text : List Char) : List (List Char) := text.splitOn '\n'

def IsBlank (row : List Char) : Prop := ∀ c ∈ row, isWhitespace c = true

def readRows {β : Type} (f : List Char → Option β) (text : String) : List β := (rows text.toList).filterMap f

section
variable {text blank : List Char} {c : Char}

theorem rows_newline (a b : List Char) : rows (a ++ '\n' :: b) = rows a ++ rows b := List.splitOn_append_cons_self a b

theorem rows_cons (plain : c ≠ '\n') (text : List Char) : rows (c :: text) = (rows text).modifyHead (List.cons c) := by
  rw [rows,List.splitOn_cons_eq_if_modifyHead,if_neg (by simpa using plain)]
  rfl

theorem rows_cons_newline (text : List Char) : rows ('\n' :: text) = [] :: rows text := rows_newline [] text

theorem rows_line (plain : '\n' ∉ text) : rows text = [text] := List.splitOn_eq_singleton plain

theorem rows_ne_nil (text : List Char) : rows text ≠ [] := List.splitOn_ne_nil '\n' text

theorem newline_not_mem {row : List Char} (inside : row ∈ rows text) : '\n' ∉ row := by
  induction text generalizing row with
  | nil =>
    rw [List.mem_singleton.mp inside]
    exact List.not_mem_nil
  | cons c text ih =>
    by_cases newline : c = '\n'
    · rw [newline,rows_cons_newline] at inside
      rcases List.mem_cons.mp inside with rfl | later
      · exact List.not_mem_nil
      · exact ih later
    · obtain ⟨first,rest,cut⟩ := List.exists_cons_of_ne_nil (rows_ne_nil text)
      rw [rows_cons newline,cut,List.modifyHead_cons] at inside
      rw [cut] at ih
      rcases List.mem_cons.mp inside with rfl | later
      · intro among
        rcases List.mem_cons.mp among with same | deeper
        · exact newline same.symm
        · exact ih List.mem_cons_self deeper
      · exact ih (List.mem_cons_of_mem first later)

theorem rows_blank_append (spaces : IsBlank blank) (text : List Char) : ∃ blanks lead first rest,
    rows text = first :: rest ∧ rows (blank ++ text) = blanks ++ (lead ++ first) :: rest ∧ IsBlank lead ∧
      ∀ row ∈ blanks, IsBlank row := by
  induction blank with
  | nil =>
    obtain ⟨first,rest,cut⟩ := List.exists_cons_of_ne_nil (rows_ne_nil text)
    exact ⟨[],[],first,rest,cut,cut,nofun,nofun⟩
  | cons c blank ih =>
    obtain ⟨blanks,lead,first,rest,cut,joined,spaced,all⟩ := ih (fun d inside => spaces d (List.mem_cons_of_mem c inside))
    by_cases newline : c = '\n'
    · refine ⟨[] :: blanks,lead,first,rest,cut,?_,spaced,?_⟩
      · rw [newline,List.cons_append,rows_cons_newline,joined]
        rfl
      · intro row inside
        rcases List.mem_cons.mp inside with rfl | later
        · exact nofun
        · exact all row later
    · have white : isWhitespace c = true := spaces c List.mem_cons_self
      rw [List.cons_append,rows_cons newline,joined]
      cases blanks with
      | nil =>
        refine ⟨[],c :: lead,first,rest,cut,rfl,?_,nofun⟩
        intro d inside
        rcases List.mem_cons.mp inside with rfl | later
        · exact white
        · exact spaced d later
      | cons row others =>
        refine ⟨(c :: row) :: others,lead,first,rest,cut,rfl,spaced,?_⟩
        intro other inside
        rcases List.mem_cons.mp inside with rfl | later
        · intro d among
          rcases List.mem_cons.mp among with rfl | deeper
          · exact white
          · exact all row List.mem_cons_self d deeper
        · exact all other (List.mem_cons_of_mem row later)

theorem rows_append_blank (spaces : IsBlank blank) (text : List Char) : ∃ front last trail blanks,
    rows text = front ++ [last] ∧ rows (text ++ blank) = front ++ (last ++ trail) :: blanks ∧ IsBlank trail ∧
      ∀ row ∈ blanks, IsBlank row := by
  induction text with
  | nil =>
    obtain ⟨blanks,lead,first,rest,cut,joined,spaced,all⟩ := rows_blank_append spaces []
    cases cut
    rw [List.append_nil] at joined
    cases blanks with
    | nil => exact ⟨[],[],lead,[],rfl,by simpa using joined,spaced,nofun⟩
    | cons row others =>
      refine ⟨[],[],row,others ++ [lead],rfl,by simpa using joined,all row List.mem_cons_self,?_⟩
      intro other inside
      rcases List.mem_append.mp inside with early | last
      · exact all other (List.mem_cons_of_mem row early)
      · rw [List.mem_singleton.mp last]
        exact spaced
  | cons c text ih =>
    obtain ⟨front,last,trail,blanks,cut,joined,spaced,all⟩ := ih
    by_cases newline : c = '\n'
    · refine ⟨[] :: front,last,trail,blanks,?_,?_,spaced,all⟩
      · rw [newline,rows_cons_newline,cut]
        rfl
      · rw [newline,List.cons_append,rows_cons_newline,joined]
        rfl
    · rw [List.cons_append,rows_cons newline,rows_cons newline,cut,joined]
      cases front with
      | nil => exact ⟨[],c :: last,trail,blanks,rfl,rfl,spaced,all⟩
      | cons row others => exact ⟨(c :: row) :: others,last,trail,blanks,rfl,rfl,spaced,all⟩

end

theorem isBlank_takeWhile (text : List Char) : IsBlank (text.takeWhile isWhitespace) :=
  fun _ inside => List.mem_takeWhile_imp inside

theorem exists_trim (text : String) : ∃ before after, IsBlank before ∧ IsBlank after ∧
    text.toList = before ++ (trim text).toList ++ after := by
  have front := @List.takeWhile_append_dropWhile _ isWhitespace text.toList
  have back := congrArg List.reverse
    (@List.takeWhile_append_dropWhile _ isWhitespace (text.toList.dropWhile isWhitespace).reverse)
  rw [List.reverse_append,List.reverse_reverse] at back
  refine ⟨_,_,isBlank_takeWhile text.toList,
    fun c inside => isBlank_takeWhile (text.toList.dropWhile isWhitespace).reverse c (List.mem_reverse.mp inside),?_⟩
  rw [trim,trimEnd,trimStart,String.toList_ofList,String.toList_ofList,List.append_assoc,back,front]

section
variable {β : Type} {f : List Char → Option β}

theorem readRows_newline (f : List Char → Option β) (a b : String) :
    readRows f (a ++ "\n" ++ b) = readRows f a ++ readRows f b := by
  have cut : (a ++ "\n" ++ b).toList = a.toList ++ '\n' :: b.toList := by simp
  rw [readRows,cut,rows_newline,List.filterMap_append]
  rfl

theorem readRows_line {line : String} (plain : '\n' ∉ line.toList) : readRows f line = (f line.toList).toList := by
  rw [readRows,rows_line plain]
  cases found : f line.toList <;> simp [found]

theorem newline_not_mem_lines {text line : String} (inside : line ∈ lines text) : '\n' ∉ line.toList := by
  have each : ∀ row ∈ (rows text.toList).dropLast.map stripCarriage ++ [(rows text.toList).getLastD []], '\n' ∉ row := by
    intro row listed
    rcases List.mem_append.mp listed with ended | last
    · obtain ⟨whole,there,rfl⟩ := List.mem_map.mp ended
      have plain := newline_not_mem ((List.dropLast_sublist _).subset there)
      unfold stripCarriage
      split
      · exact fun among => plain ((List.dropLast_sublist _).subset among)
      · exact plain
    · rw [List.mem_singleton.mp last,List.getLastD_eq_getLast?]
      cases found : (rows text.toList).getLast? with
      | none => exact List.not_mem_nil
      | some row => exact newline_not_mem (List.mem_of_getLast? found)
  unfold lines at inside
  obtain ⟨row,listed,rfl⟩ := List.mem_map.mp inside
  rw [String.toList_ofList]
  refine each row ?_
  split at listed
  · exact List.mem_append_left _ listed
  · exact listed

/-- Reading the lines of a text is reading its rows, where a carriage return at the end of a row is not read. -/
theorem filterMap_lines (ends : ∀ row, f (row ++ ['\r']) = f row) (none : f [] = none) (text : String) :
    (lines text).filterMap (fun line => f line.toList) = readRows f text := by
  have stripped (row : List Char) : f (stripCarriage row) = f row := by
    unfold stripCarriage
    split
    next last =>
      obtain ⟨front,rfl⟩ := List.getLast?_eq_some_iff.mp last
      rw [List.dropLast_concat,ends]
    next => rfl
  obtain ⟨front,last,cut⟩ : ∃ front last, rows text.toList = front ++ [last] :=
    ⟨_,_,(List.dropLast_append_getLast (rows_ne_nil text.toList)).symm⟩
  have parts : text.toList.splitOn '\n' = front ++ [last] := cut
  rw [readRows,cut,lines]
  rw [parts,List.dropLast_concat,List.getLastD_concat,List.filterMap_map]
  have read : (fun line : String => f line.toList) ∘ String.ofList = f := by
    funext row
    rw [Function.comp_apply,String.toList_ofList]
  rw [read]
  have ended : (front.map stripCarriage).filterMap f = front.filterMap f := by
    rw [List.filterMap_map]
    exact congrArg (fun g => List.filterMap g front) (funext stripped)
  split
  next empty =>
    rw [ended,List.filterMap_append,List.isEmpty_iff.mp empty]
    simp [none]
  next => rw [List.filterMap_append,List.filterMap_append,ended]

theorem readRows_joinLines {lines : List String} (plain : ∀ line ∈ lines, '\n' ∉ line.toList) (none : f [] = none) :
    readRows f (joinLines lines) = lines.filterMap (fun line => f line.toList) := by
  induction lines with
  | nil => simp [readRows,rows,none]
  | cons line lines ih =>
    rw [joinLines_cons,readRows_newline,readRows_line (plain line List.mem_cons_self),
      ih (fun other inside => plain other (List.mem_cons_of_mem line inside)),List.filterMap_cons]
    cases f line.toList <;> rfl

theorem readRows_trim (before : ∀ blank row, IsBlank blank → f (blank ++ row) = f row)
    (after : ∀ blank row, IsBlank blank → f (row ++ blank) = f row) (none : f [] = none) (text : String) :
    readRows f (trim text) = readRows f text := by
  have skipped {rows : List (List Char)} (all : ∀ row ∈ rows, IsBlank row) : rows.filterMap f = [] := by
    rw [List.filterMap_eq_nil_iff]
    intro row inside
    have same := before row [] (all row inside)
    rw [← none,← same,List.append_nil]
  obtain ⟨lead,trail,leading,trailing,whole⟩ := exists_trim text
  obtain ⟨blanks,opened,first,rest,cut,joined,space,all⟩ := rows_blank_append leading ((trim text).toList ++ trail)
  obtain ⟨front,last,ended,others,parts,longer,blank,spaces⟩ := rows_append_blank trailing (trim text).toList
  have start : readRows f text = (rows ((trim text).toList ++ trail)).filterMap f := by
    rw [readRows,whole,List.append_assoc,joined,cut,List.filterMap_append,skipped all,List.nil_append]
    simp only [List.filterMap_cons,before opened first space]
  rw [start,longer,readRows,parts,List.filterMap_append,List.filterMap_append]
  simp only [List.filterMap_cons,after ended last blank,skipped spaces,List.filterMap_nil]

end

end Chunk
end Ecphoria
