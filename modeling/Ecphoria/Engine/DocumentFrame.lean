import Ecphoria.Engine.Reimport
import Ecphoria.Engine.Upkeep
import Ecphoria.Cognition.Subjects

/-! What importing and pruning documents writes. The batch keys rows by scope, project and
subject, the sweep by scope and subject, and a prune by the subject up to its first `#`;
where these differ a row of another project or document is reached. -/
namespace Ecphoria
open Library

/-- Every row that is changed, added or gone is a chosen one, before and after. -/
def ChangesOnly (chosen : Memory → Prop) (t u : MemoryTable) : Prop :=
  ∀ id, t.find id ≠ u.find id → ∀ row, t.find id = some row ∨ u.find id = some row → chosen row.memory

/-- The rows of the first table, and chosen ones in place of chosen ones. -/
def KeptWithin (chosen : Memory → Prop) (t u : MemoryTable) : Prop :=
  ∀ row ∈ u.rows, row ∈ t.rows ∨
    chosen row.memory ∧ ∀ old ∈ t.rows, old.id = row.id → chosen old.memory

theorem KeptWithin.refl (chosen : Memory → Prop) (t : MemoryTable) : KeptWithin chosen t t := fun _ member => Or.inl member

theorem KeptWithin.changes {chosen : Memory → Prop} {t u : MemoryTable} (within : KeptWithin chosen t u)
    (keys : ∀ id ∈ t.keys, id ∈ u.keys) : ChangesOnly chosen t u := by
  intro id differs row either
  obtain ⟨new,member,same⟩ : ∃ new ∈ u.rows, new.id = id := by
    apply (Table.mem_keys u id).mp
    rcases either with before | after
    · obtain ⟨there,equal⟩ := (Table.find_eq_some t id row).mp before
      exact keys id ((Table.mem_keys t id).mpr ⟨row,there,equal⟩)
    · obtain ⟨there,equal⟩ := (Table.find_eq_some u id row).mp after
      exact (Table.mem_keys u id).mpr ⟨row,there,equal⟩
  have found : u.find id = some new := (Table.find_eq_some u id new).mpr ⟨member,same⟩
  rcases within new member with kept | ⟨placed,replaced⟩
  · exact absurd (((Table.find_eq_some t id new).mpr ⟨kept,same⟩).trans found.symm) differs
  · rcases either with before | after
    · obtain ⟨there,equal⟩ := (Table.find_eq_some t id row).mp before
      exact replaced row there (equal.trans same.symm)
    · cases found.symm.trans after
      exact placed

theorem KeptWithin.upsertRows {chosen : Memory → Prop} {t u : MemoryTable} (within : KeptWithin chosen t u)
    (keys : ∀ id ∈ t.keys, id ∈ u.keys) {rows : List MemoryRow}
    (placed : ∀ row ∈ rows, chosen row.memory ∧ ∀ old ∈ u.rows, old.id = row.id → chosen old.memory)
    (plain : ∀ row : MemoryRow, chosen row.stored.memory ↔ chosen row.memory) :
    KeptWithin chosen t (u.upsertRows rows) := by
  intro row member
  rcases MemoryTable.mem_upsertRows member with ⟨written,inside,rfl⟩ | ⟨old,_⟩
  · obtain ⟨own,replaced⟩ := placed written inside
    refine Or.inr ⟨(plain written).mpr own,?_⟩
    intro old there equal
    obtain ⟨between,listed,same⟩ := (Table.mem_keys _ _).mp (keys old.id ((Table.mem_keys _ _).mpr ⟨old,there,rfl⟩))
    have replaced := replaced between listed (same.trans equal)
    rcases within between listed with kept | ⟨_,before⟩
    · cases t.eq_of_key there kept same.symm
      exact replaced
    · exact before old there same.symm
  · exact within row old

section
variable {env : Env} {home : MemoryScope} {project : Option String}

/-- A row of the plan of a section is new, or stands in the place of an active version of its subject. -/
theorem SectionPlan.row {e : Engine} {d : Draw} {input : MemoryInput} {subject : String} {planned : Planned}
    (plan : SectionPlan home project e d input subject planned) {row : MemoryRow} (inside : row ∈ planned.rows) :
    SectionRow home e d input subject row ∧
        (row.memory.project = project ∨ planned.add.outcome = .conflict ∧ row.memory.project = none) ∨
      ∃ old ∈ e.memories.rows, MemoryTable.beliefFilter home subject project old.memory = true ∧ old.id = row.id ∧
        row.memory.scope = old.memory.scope ∧ row.memory.subject = old.memory.subject ∧
        row.memory.project = old.memory.project ∧ old.memory.version ≤ row.memory.version := by
  cases plan with
  | inserted new written _ made grouped _ =>
    rw [written] at inside
    cases List.mem_singleton.mp inside
    exact Or.inl ⟨made,Or.inl grouped⟩
  | confirmed m written _ found _ =>
    rw [written] at inside
    cases List.mem_singleton.mp inside
    obtain ⟨old,member,rfl,inHome,about,grouped,active⟩ := newest_listed found
    exact Or.inr ⟨old,member,MemoryTable.beliefFilter_eq_true.mpr ⟨inHome,about,grouped,active⟩,rfl,rfl,rfl,rfl,
      Nat.le_succ _⟩
  | conflict new m written outcome made ungrouped _ _ _ _ =>
    rw [written] at inside
    cases List.mem_singleton.mp inside
    exact Or.inl ⟨made,Or.inr ⟨outcome,ungrouped⟩⟩
  | superseded new m others validAt written _ made grouped found _ _ =>
    rw [written] at inside
    rcases List.mem_append.mp inside with closed | last
    · obtain ⟨version,listed,rfl⟩ := List.mem_map.mp closed
      obtain ⟨old,member,rfl,inHome,about,grouped,active⟩ := MemoryTable.mem_findActiveBySubject.mp (found ▸ listed)
      exact Or.inr ⟨old,member,MemoryTable.beliefFilter_eq_true.mpr ⟨inHome,about,grouped,active⟩,rfl,rfl,rfl,rfl,le_rfl⟩
    · cases List.mem_singleton.mp last
      exact Or.inl ⟨made,Or.inl grouped⟩

variable (env home project) in
/-- No section contradicts the newest version of its subject or another section, when review would keep both. -/
def Calm (e : Engine) (items : List (MemoryInput × Draw)) : Prop :=
  e.config.cognition.contradictionReview = true → project ≠ none →
    (∀ item ∈ items, ∀ subject, (canonicalInput env item.1).subject = some subject → ∀ m,
      newest e.memories home subject project = some m → trim m.content = trim item.1.content) ∧
    ∀ first ∈ items, ∀ second ∈ items, (canonicalInput env first.1).subject = (canonicalInput env second.1).subject →
      trim first.1.content = trim second.1.content

theorem Calm.step {e : Engine} {input : MemoryInput} {d : Draw} {rest : List (MemoryInput × Draw)}
    (calm : Calm env home project e ((input,d) :: rest)) (sections : Sections env home project e ((input,d) :: rest)) :
    Calm env home project (writeNext env e (input,d)) rest := by
  intro review grouped
  rw [writeNext_config] at review
  obtain ⟨newestAgree,pairs⟩ := calm review grouped
  refine ⟨?_,fun first inside second listed => pairs first (List.mem_cons_of_mem _ inside) second
    (List.mem_cons_of_mem _ listed)⟩
  intro item inside subject about m found
  obtain ⟨key,keyed⟩ := sections.subject (List.mem_cons_self (a := (input,d)))
  by_cases own : key = subject
  · subst own
    have same := pairs (input,d) List.mem_cons_self item (List.mem_cons_of_mem _ inside) (keyed.trans about.symm)
    -- the section is in front after its write: it was confirmed, or there was nothing
    have held : InFront home project (writeNext env e (input,d)).memories key (trim input.content) := by
      apply (sections.step keyed).1.mpr
      cases before : newest e.memories home key project with
      | none => exact Or.inr (Or.inl before)
      | some old => exact Or.inl ⟨old,before,newestAgree (input,d) List.mem_cons_self key keyed old before⟩
    obtain ⟨other,equal,content⟩ := held
    cases found.symm.trans equal
    exact content.trans same
  · rw [(sections.apart keyed (Ne.symm own)).1] at found
    exact newestAgree item (List.mem_cons_of_mem _ inside) subject about m found

/-- A section of a calm import is not set beside another version, unless that version is of no project either. -/
theorem Calm.grouped {e : Engine} {input : MemoryInput} {d : Draw} {rest : List (MemoryInput × Draw)} {subject : String}
    {planned : Planned} (calm : Calm env home project e ((input,d) :: rest))
    (about : (canonicalInput env input).subject = some subject) (plan : SectionPlan home project e d input subject planned)
    (conflict : planned.add.outcome = .conflict) : project = none := by
  by_contra grouped
  cases plan with
  | inserted _ _ outcome => cases outcome.symm.trans conflict
  | confirmed _ _ outcome => cases outcome.symm.trans conflict
  | conflict _ m _ _ _ _ _ found differs review =>
    exact differs ((calm review grouped).1 (input,d) List.mem_cons_self subject about m found)
  | superseded _ _ _ _ _ outcome => cases outcome.symm.trans conflict

private theorem keys_written {t : MemoryTable} {e : Engine} (keys : ∀ id ∈ t.keys, id ∈ e.memories.keys)
    (item : MemoryInput × Draw) : ∀ id ∈ t.keys, id ∈ (writeNext env e item).memories.keys :=
  fun id known => writes_keys env e [item] (keys id known)

theorem Sections.keptWithin {chosen : Memory → Prop} {t : MemoryTable} {e : Engine} {items : List (MemoryInput × Draw)}
    (sections : Sections env home project e items) (calm : Calm env home project e items)
    (keys : ∀ id ∈ t.keys, id ∈ e.memories.keys) (within : KeptWithin chosen t e.memories)
    (places : ∀ item ∈ items, ∀ subject, (canonicalInput env item.1).subject = some subject → ∀ m : Memory,
      m.scope = home.withDefaultTenant → m.subject = some subject → m.project = project → chosen m)
    (plain : ∀ row : MemoryRow, chosen row.stored.memory ↔ chosen row.memory) :
    KeptWithin chosen t (run (writeNext env) e items).memories := by
  induction items generalizing e with
  | nil => exact within
  | cons item rest ih =>
    obtain ⟨input,d⟩ := item
    obtain ⟨key,about⟩ := sections.subject (List.mem_cons_self (a := (input,d)))
    obtain ⟨planned,ok,plan⟩ := sections.plan about
    refine ih sections.tail (calm.step sections) (keys_written keys (input,d)) ?_
      (fun other inside => places other (List.mem_cons_of_mem _ inside))
    rw [writeNext_planned env ok]
    refine within.upsertRows keys ?_ plain
    intro row inside
    have place := places (input,d) List.mem_cons_self key about
    rcases plan.row inside with ⟨new,group⟩ | ⟨old,member,selected,same,scope,subject,group,_⟩
    · have grouped : row.memory.project = project := by
        rcases group with grouped | ⟨conflict,ungrouped⟩
        · exact grouped
        · exact ungrouped.trans (calm.grouped about plan conflict).symm
      refine ⟨place row.memory new.scope new.subject grouped,?_⟩
      intro old member equal
      exact absurd ((Table.mem_keys _ _).mpr ⟨old,member,equal.trans new.id⟩) (sections.fresh (input,d) List.mem_cons_self)
    · obtain ⟨inHome,keyed,grouped,_⟩ := MemoryTable.beliefFilter_eq_true.mp selected
      refine ⟨place row.memory (scope.trans inHome) (subject.trans keyed) (group.trans grouped),?_⟩
      intro other there equal
      cases e.memories.eq_of_key there member (equal.trans same.symm)
      exact place old.memory inHome keyed grouped

theorem Sections.foreign {e : Engine} {items : List (MemoryInput × Draw)} (sections : Sections env home project e items)
    {row : MemoryRow} (member : row ∈ e.memories.rows) (other : row.memory.project ≠ project) :
    row ∈ (run (writeNext env) e items).memories.rows := by
  induction items generalizing e with
  | nil => exact member
  | cons item rest ih =>
    obtain ⟨input,d⟩ := item
    obtain ⟨key,about⟩ := sections.subject (List.mem_cons_self (a := (input,d)))
    obtain ⟨planned,ok,plan⟩ := sections.plan about
    refine ih sections.tail ?_
    obtain ⟨stored,there,same⟩ := (Table.mem_keys _ _).mp (writes_keys env e [(input,d)]
      ((Table.mem_keys _ _).mpr ⟨row,member,rfl⟩))
    change stored ∈ (writeNext env e (input,d)).memories.rows at there
    rw [writeNext_planned env ok] at there ⊢
    rcases MemoryTable.mem_upsertRows there with ⟨written,inside,rfl⟩ | ⟨kept,_⟩
    · rcases plan.row inside with ⟨new,_⟩ | ⟨old,listed,selected,equal,_⟩
      · exact absurd ((Table.mem_keys _ _).mpr ⟨row,member,same.symm.trans new.id⟩)
          (sections.fresh (input,d) List.mem_cons_self)
      · cases e.memories.eq_of_key listed member (equal.trans same)
        exact absurd (MemoryTable.beliefFilter_eq_true.mp selected).2.2.1 other
    · cases e.memories.eq_of_key kept member same
      exact there

theorem Sections.calm_of {t : MemoryTable} {e : Engine} {items : List (MemoryInput × Draw)}
    (sections : Sections env home project e items) (keys : ∀ id ∈ t.keys, id ∈ e.memories.keys)
    (grouped : ∀ row ∈ (run (writeNext env) e items).memories.rows, row.id ∉ t.keys → row.memory.project = project) :
    Calm env home project e items := by
  induction items generalizing e with
  | nil => exact fun _ _ => ⟨by simp,by simp⟩
  | cons item rest ih =>
    obtain ⟨input,d⟩ := item
    obtain ⟨key,about⟩ := sections.subject (List.mem_cons_self (a := (input,d)))
    obtain ⟨planned,ok,plan⟩ := sections.plan about
    intro review named
    obtain ⟨front,pairs⟩ := ih sections.tail (keys_written keys (input,d)) grouped (by rwa [writeNext_config]) named
    have own : ∀ m, newest e.memories home key project = some m → trim m.content = trim input.content := by
      intro m found
      cases plan with
      | inserted _ _ _ _ _ absent => cases absent.symm.trans found
      | confirmed other _ _ equal same =>
        cases found.symm.trans equal
        exact same
      | conflict row _ written _ new ungrouped =>
        -- the row it would leave is new and of no project
        have there : row.stored ∈ (writeNext env e (input,d)).memories.rows := by
          rw [writeNext_planned env ok,written]
          exact (Table.mem_upsert _ _ _).mpr (Or.inl rfl)
        have other : row.stored.memory.project ≠ project := fun equal => named (equal.symm.trans ungrouped)
        have kept := sections.tail.foreign there other
        refine absurd (grouped row.stored kept ?_) other
        intro known
        exact sections.fresh (input,d) List.mem_cons_self (new.id ▸ keys row.id known)
      | superseded _ _ _ _ _ _ _ _ _ _ off => cases review.symm.trans off
    have held : InFront home project (writeNext env e (input,d)).memories key (trim input.content) := by
      apply (sections.step about).1.mpr
      cases before : newest e.memories home key project with
      | none => exact Or.inr (Or.inl before)
      | some m => exact Or.inl ⟨m,before,own m before⟩
    have same : ∀ item ∈ rest, (canonicalInput env item.1).subject = some key →
        trim input.content = trim item.1.content := by
      intro item inside keyed
      obtain ⟨m,found,content⟩ := held
      exact content.symm.trans (front item inside key keyed m found)
    refine ⟨?_,?_⟩
    · intro item inside subject keyed m found
      rcases List.mem_cons.mp inside with rfl | later
      · cases about.symm.trans keyed
        exact own m found
      · by_cases equal : subject = key
        · subst equal
          exact (own m found).trans (same item later keyed)
        · rw [← (sections.apart about equal).1] at found
          exact front item later subject keyed m found
    · intro first inside second listed equal
      rcases List.mem_cons.mp inside with rfl | later
      · rcases List.mem_cons.mp listed with rfl | after
        · rfl
        · exact same second after (equal.symm.trans about)
      · rcases List.mem_cons.mp listed with rfl | after
        · exact (same first later (equal.trans about)).symm
        · exact pairs first later second after equal

def Grown (t u : MemoryTable) : Prop :=
  ∀ row ∈ u.rows, ∀ old ∈ t.rows, old.id = row.id → old.memory.version ≤ row.memory.version

def Marked (t u : MemoryTable) (subject : String) : Prop :=
  ∃ row ∈ u.rows, row.memory.subject = some subject ∧
    ∀ old ∈ t.rows, old.id = row.id → old.memory.version < row.memory.version

private theorem Sections.grows {t : MemoryTable} {e : Engine} {input : MemoryInput} {d : Draw}
    {rest : List (MemoryInput × Draw)} {key : String} (sections : Sections env home project e ((input,d) :: rest))
    (about : (canonicalInput env input).subject = some key) (keys : ∀ id ∈ t.keys, id ∈ e.memories.keys)
    (grown : Grown t e.memories) :
    Grown t (writeNext env e (input,d)).memories ∧ Marked t (writeNext env e (input,d)).memories key ∧
      ∀ subject, Marked t e.memories subject → Marked t (writeNext env e (input,d)).memories subject := by
  obtain ⟨planned,ok,plan⟩ := sections.plan about
  have fresh : d.id ∉ e.memories.keys := sections.fresh (input,d) List.mem_cons_self
  have unknown {old : MemoryRow} (member : old ∈ t.rows) : old.id ≠ d.id :=
    fun equal => fresh (equal ▸ keys old.id ((Table.mem_keys _ _).mpr ⟨old,member,rfl⟩))
  -- the row under an identifier of the table, after the write
  have after {id : Uuid} (known : id ∈ e.memories.keys) :
      ∃ row ∈ (e.memories.upsertRows planned.rows).rows, row.id = id := by
    apply (Table.mem_keys _ _).mp
    rw [MemoryTable.upsertRows_eq]
    exact Table.mem_keys_upsertAll (Or.inr known)
  rw [writeNext_planned env ok]
  refine ⟨?_,?_,?_⟩
  · intro row member old there equal
    rcases MemoryTable.mem_upsertRows member with ⟨written,inside,rfl⟩ | ⟨kept,_⟩
    · rcases plan.row inside with ⟨new,_⟩ | ⟨before,listed,_,same,_,_,_,version⟩
      · exact absurd (equal.trans new.id) (unknown there)
      · exact (grown before listed old there (equal.trans same.symm)).trans version
    · exact grown row kept old there equal
  · have drawn {row : MemoryRow} (new : SectionRow home e d input key row) (before : List MemoryRow)
        (written : planned.rows = before ++ [row]) : Marked t (e.memories.upsertRows planned.rows) key := by
      refine ⟨row.stored,?_,new.subject,fun old there equal => absurd (equal.trans new.id) (unknown there)⟩
      rw [written,MemoryTable.upsertRows_append]
      exact (Table.mem_upsert _ _ _).mpr (Or.inl rfl)
    cases plan with
    | inserted row written _ new => exact drawn new [] written
    | confirmed m written _ found _ =>
      obtain ⟨old,member,rfl,_,keyed,_⟩ := newest_listed found
      obtain ⟨row,rows,raised⟩ : ∃ row, planned.rows = [row] ∧ row.id = old.id ∧
          row.memory.subject = old.memory.subject ∧ row.memory.version = old.memory.version + 1 :=
        ⟨_,written,rfl,rfl,rfl⟩
      refine ⟨row.stored,?_,raised.2.1.trans keyed,?_⟩
      · rw [rows]
        exact (Table.mem_upsert _ _ _).mpr (Or.inl rfl)
      · intro before there equal
        change before.memory.version < row.memory.version
        rw [raised.2.2]
        exact Nat.lt_succ_of_le (grown old member before there (equal.trans raised.1))
    | conflict row _ written _ new => exact drawn new [] written
    | superseded row _ _ _ written _ new => exact drawn new _ written
  · intro subject marked
    obtain ⟨row,member,keyed,above⟩ := marked
    obtain ⟨stored,there,same⟩ := after ((Table.mem_keys _ _).mpr ⟨row,member,rfl⟩)
    refine ⟨stored,there,?_⟩
    rcases MemoryTable.mem_upsertRows there with ⟨written,inside,rfl⟩ | ⟨kept,_⟩
    · rcases plan.row inside with ⟨new,_⟩ | ⟨before,listed,_,equal,_,about,_,version⟩
      · exact absurd ((Table.mem_keys _ _).mpr ⟨row,member,same.symm.trans new.id⟩) fresh
      · cases e.memories.eq_of_key listed member (equal.trans same)
        exact ⟨about.trans keyed,fun old there under => (above old there (under.trans same)).trans_le version⟩
    · cases e.memories.eq_of_key kept member same
      exact ⟨keyed,above⟩

theorem Sections.marked {t : MemoryTable} {e : Engine} {items : List (MemoryInput × Draw)}
    (sections : Sections env home project e items) (keys : ∀ id ∈ t.keys, id ∈ e.memories.keys)
    (grown : Grown t e.memories) {subject : String}
    (among : Marked t e.memories subject ∨ ∃ item ∈ items, (canonicalInput env item.1).subject = some subject) :
    Marked t (run (writeNext env) e items).memories subject := by
  induction items generalizing e with
  | nil => simpa using among
  | cons item rest ih =>
    obtain ⟨input,d⟩ := item
    obtain ⟨key,about⟩ := sections.subject (List.mem_cons_self (a := (input,d)))
    obtain ⟨later,mark,stays⟩ := sections.grows about keys grown
    refine ih sections.tail (keys_written keys (input,d)) later ?_
    rcases among with marked | ⟨item,inside,keyed⟩
    · exact Or.inl (stays subject marked)
    · rcases List.mem_cons.mp inside with rfl | tail
      · cases about.symm.trans keyed
        exact Or.inl mark
      · exact Or.inr ⟨item,tail,keyed⟩

end

section
variable {env : Env} {e : Engine} {doc : DocumentIngest} {scope : MemoryScope} {opts : ChunkOptions} {draws : Nat → Draw}

variable (env e doc scope opts draws) in
def documentLanded : List (MemoryInput × Draw) := landedItems env e.config (documentItems doc scope opts draws) [] []

variable (env e doc scope opts) in
/-- The rows that an import sweeps: none when governance refuses a section. -/
def documentSwept (now : Int) : List MemoryRow :=
  if ∀ input ∈ documentInputs doc scope opts, Accepts env e.config input then documentStale env e doc scope opts now else []

theorem mem_documentLanded {item : MemoryInput × Draw} (inside : item ∈ documentLanded env e doc scope opts draws) :
    item ∈ documentItems doc scope opts draws :=
  (landedItems_leading env (documentItems doc scope opts draws) [] []).subset inside

theorem sections_landed (recorded : RowsRecorded e.memories)
    (keyed : ∀ input ∈ documentInputs doc scope opts, (canonicalInput env input).subject ≠ none)
    (fresh : ∀ item ∈ documentItems doc scope opts draws, item.2.id ∉ e.memories.keys)
    (distinct : ((documentItems doc scope opts draws).map (fun item => item.2.id)).Nodup) :
    Sections env scope.withDefaultTenant doc.project e (documentLanded env e doc scope opts draws) where
  recorded := recorded
  placed := by
    intro item inside
    obtain ⟨chunk,_,same⟩ := mem_documentInputs (mem_withDraws (mem_documentLanded inside)).1
    rw [same]
    exact ⟨rfl,rfl⟩
  keyed := fun item inside => keyed item.1 (mem_withDraws (mem_documentLanded inside)).1
  accepted := fun item inside => accepted_of_landed env (documentItems doc scope opts draws) [] [] (by simp) inside
  fresh := fun item inside => fresh item (mem_documentLanded inside)
  distinct := by
    have part : documentLanded env e doc scope opts draws <+: documentItems doc scope opts draws :=
      landedItems_leading env (documentItems doc scope opts draws) [] []
    exact distinct.sublist (part.sublist.map _)

theorem documentSwept_gone {now : Int} {row : MemoryRow} (swept : row ∈ documentSwept env e doc scope opts now) :
    row.memory.state = .expired ∧ ∃ old ∈ e.memories.rows, old.id = row.id ∧
      ∃ subject, old.memory.subject = some subject ∧ subject ∉ documentProduced env (documentInputs doc scope opts) := by
  unfold documentSwept at swept
  split at swept
  next => exact documentStale_gone swept
  next => cases swept

/-- An import writes the sections that land one after the other, and the rows of the sweep over them. -/
theorem documentIngest_memories
    (keyed : ∀ input ∈ documentInputs doc scope opts, (canonicalInput env input).subject ≠ none)
    (fresh : ∀ item ∈ documentItems doc scope opts draws, item.2.id ∉ e.memories.keys)
    (distinct : ((documentItems doc scope opts draws).map (fun item => item.2.id)).Nodup) (now : Int) :
    (documentIngest env e doc scope opts draws now).2.memories =
      (run (writeNext env) e (documentLanded env e doc scope opts draws)).memories.upsertRows
        (documentSwept env e doc scope opts now) := by
  have unmerged : ∀ item ∈ documentItems doc scope opts draws, Unmerged env e.config item.1 :=
    fun item inside => Or.inr (keyed item.1 (mem_withDraws inside).1)
  obtain ⟨memories,_,outcomes⟩ := memoryAddBatch_lands e (documentItems doc scope opts draws) unmerged fresh distinct
  have batch : memoryAddBatch env e (withDraws (documentInputs doc scope opts) draws) =
    memoryAddBatch env e (documentItems doc scope opts draws) := rfl
  simp only [documentIngest,batch]
  cases done : memoryAddBatch env e (documentItems doc scope opts draws) with
  | mk answer between =>
  rw [done] at memories outcomes
  dsimp only at memories outcomes
  cases answer with
  | error err =>
    have refused : ¬∀ input ∈ documentInputs doc scope opts, Accepts env e.config input := by
      intro accepted
      cases outcomes (fun item inside => accepted item.1 (mem_withDraws inside).1)
    rw [documentSwept,if_neg refused]
    exact memories
  | ok added =>
    have accepted : ∀ input ∈ documentInputs doc scope opts, Accepts env e.config input := by
      intro input inside
      obtain ⟨item,listed,rfl⟩ := exists_documentItem inside draws
      exact memoryAddBatch_accepted env done item listed
    rw [documentSwept,if_pos accepted]
    have known : ∀ row ∈ documentStale env e doc scope opts now, row.id ∈ between.memories.keys := by
      intro row swept
      obtain ⟨_,old,member,same,_⟩ := documentStale_gone swept
      rw [memories]
      exact writes_keys env e _ ((Table.mem_keys _ _).mpr ⟨old,member,same⟩)
    obtain ⟨after,ok,written,_⟩ := memoryApplyRowsBatch_known known
    have applied : memoryApplyRowsBatch between (sweepRows (e.memories.findActiveByDocument env scope doc.path)
      (documentProduced env (documentInputs doc scope opts)) now) = .ok after := ok
    simp only [applied]
    rw [written,memories]
    rfl

theorem documentIngest_recorded (recorded : RowsRecorded e.memories)
    (keyed : ∀ input ∈ documentInputs doc scope opts, (canonicalInput env input).subject ≠ none)
    (fresh : ∀ item ∈ documentItems doc scope opts draws, item.2.id ∉ e.memories.keys)
    (distinct : ((documentItems doc scope opts draws).map (fun item => item.2.id)).Nodup) (now : Int) :
    RowsRecorded (documentIngest env e doc scope opts draws now).2.memories := by
  rw [documentIngest_memories keyed fresh distinct now]
  exact (sections_landed recorded keyed fresh distinct).recorded_run.upsertRows _

variable (env) in
/-- The subject is the normalised path, or begins with it and `#`. -/
def UnderDocument (path subject : String) : Prop :=
  subject = normalizeSubject env path ∨ (normalizeSubject env path ++ "#").toList <+: subject.toList

variable (env doc scope) in
def OfDocument (m : Memory) : Prop :=
  m.scope = scope.withDefaultTenant ∧ m.project = doc.project ∧ ∃ subject, m.subject = some subject ∧
    UnderDocument env doc.path subject

theorem underDocument_joined (lowercases : env.Lowercases) (path rest : String) :
    UnderDocument env path (normalizeSubject env (path ++ "#" ++ rest)) ↔ PathKept path := by
  obtain ⟨tail,stored⟩ := normalizeSubject_hash lowercases path rest
  rw [stored,UnderDocument]
  by_cases kept : PathKept path
  · refine iff_of_true (Or.inr ?_) kept
    simp [kept]
  · refine iff_of_false ?_ kept
    rw [if_neg kept]
    rintro (whole | front)
    · have longer := congrArg (fun s : String => s.toList.length) whole
      simp at longer
    · simp [List.append_assoc] at front

theorem underDocument_section (lowercases : env.Lowercases) {input : MemoryInput}
    (inside : input ∈ documentInputs doc scope opts) {subject : String}
    (about : (canonicalInput env input).subject = some subject) :
    UnderDocument env doc.path subject ↔ PathKept doc.path ∨ input.subject = some doc.path := by
  obtain ⟨chunk,listed,rfl⟩ := mem_documentInputs inside
  change canonicalSubject env (some (chunk.1.subject doc.path chunk.2)) = some subject at about
  change _ ↔ _ ∨ some (chunk.1.subject doc.path chunk.2) = some doc.path
  obtain ⟨mapped,_⟩ := Option.filter_eq_some_iff.mp about
  cases Option.some.inj mapped
  cases lead : chunk.1.isLead with
  | true =>
    rw [Chunk.subject_lead listed lead]
    exact iff_of_true (Or.inl rfl) (Or.inr rfl)
  | false =>
    obtain ⟨rest,joined⟩ := Chunk.subject_joined lead doc.path chunk.2
    rw [joined,underDocument_joined lowercases,Option.some_inj]
    refine (or_iff_left ?_).symm
    intro whole
    have longer := congrArg (fun s : String => s.toList.length) whole
    simp at longer

variable (env e doc scope opts draws) in
/-- The path does not end in whitespace, unless no section that lands has a heading; review finds nothing to keep
beside a section of a project; and the sweep finds rows of the project only. -/
structure Confined : Prop where
  named : PathKept doc.path ∨ ∀ item ∈ documentLanded env e doc scope opts draws, item.1.subject = some doc.path
  calm : Calm env scope.withDefaultTenant doc.project e (documentLanded env e doc scope opts draws)
  swept : (∀ input ∈ documentInputs doc scope opts, Accepts env e.config input) →
    ∀ m ∈ e.memories.findActiveByDocument env scope doc.path, ∀ subject, m.subject = some subject →
      subject ∉ documentProduced env (documentInputs doc scope opts) → m.project = doc.project

theorem documentIngest_changes_iff (lowercases : env.Lowercases) (recorded : RowsRecorded e.memories)
    (keyed : ∀ input ∈ documentInputs doc scope opts, (canonicalInput env input).subject ≠ none)
    (fresh : ∀ item ∈ documentItems doc scope opts draws, item.2.id ∉ e.memories.keys)
    (distinct : ((documentItems doc scope opts draws).map (fun item => item.2.id)).Nodup) (now : Int) :
    ChangesOnly (OfDocument env doc scope) e.memories (documentIngest env e doc scope opts draws now).2.memories ↔
      Confined env e doc scope opts draws := by
  have sections := sections_landed recorded keyed fresh distinct
  rw [documentIngest_memories keyed fresh distinct now]
  have keys : ∀ id ∈ e.memories.keys, id ∈ (run (writeNext env) e (documentLanded env e doc scope opts draws)).memories.keys :=
    fun id known => writes_keys env e _ known
  constructor
  · intro only
    -- a row that the sections leave and the sweep does not reach is still there
    have stays {row : MemoryRow}
        (member : row ∈ (run (writeNext env) e (documentLanded env e doc scope opts draws)).memories.rows)
        (apart : ∀ gone ∈ documentSwept env e doc scope opts now, gone.id ≠ row.id) (new : e.memories.find row.id ≠ some row) :
        OfDocument env doc scope row.memory := by
      have found : ((run (writeNext env) e (documentLanded env e doc scope opts draws)).memories.upsertRows
          (documentSwept env e doc scope opts now)).find row.id = some row := by
        have others : ∀ gone ∈ (documentSwept env e doc scope opts now).map MemoryRow.stored, gone.id ≠ row.id := by
          intro gone inside
          obtain ⟨swept,listed,rfl⟩ := List.mem_map.mp inside
          exact apart swept listed
        rw [MemoryTable.upsertRows_eq,Table.find_upsertAll _ _ _ others]
        exact (Table.find_eq_some _ _ _).mpr ⟨member,rfl⟩
      exact only row.id (fun same => new (same.trans found)) row (Or.inr found)
    refine ⟨?_,?_,?_⟩
    · by_contra neither
      obtain ⟨broken,headed⟩ := not_or.mp neither
      apply headed
      intro item inside
      obtain ⟨subject,about⟩ := sections.subject inside
      have listed := (mem_withDraws (mem_documentLanded inside)).1
      obtain ⟨row,member,named,above⟩ := sections.marked (fun _ known => known)
        (fun row there old listed same => (e.memories.eq_of_key there listed same.symm) ▸ le_rfl) (Or.inr ⟨item,inside,about⟩)
      have apart : ∀ gone ∈ documentSwept env e doc scope opts now, gone.id ≠ row.id := by
        intro gone swept equal
        exact sections.unswept (documentSwept_gone swept).2 member equal.symm (produced_canonical listed about) named
      have new : e.memories.find row.id ≠ some row := by
        intro before
        exact lt_irrefl _ (above row ((Table.find_eq_some _ _ _).mp before).1 rfl)
      obtain ⟨_,_,other,same,under⟩ := stays member apart new
      cases named.symm.trans same
      exact ((underDocument_section lowercases listed about).mp under).resolve_left broken
    · refine sections.calm_of (fun _ known => known) ?_
      intro row member unknown
      refine (stays member ?_ ?_).2.1
      · intro gone swept equal
        obtain ⟨_,old,there,same,_⟩ := documentSwept_gone swept
        exact unknown ((Table.mem_keys _ _).mpr ⟨old,there,same.trans equal⟩)
      · intro before
        obtain ⟨there,_⟩ := (Table.find_eq_some _ _ _).mp before
        exact unknown ((Table.mem_keys _ _).mpr ⟨row,there,rfl⟩)
    · intro accepted m listed subject about absent
      obtain ⟨⟨old,member,rfl⟩,_,active,_⟩ := mem_findActiveByDocument.mp listed
      have swept : (⟨{ old.memory with state := .expired, validTo := some now, updatedAt := now },none⟩ : MemoryRow) ∈
          documentSwept env e doc scope opts now := by
        rw [documentSwept,if_pos accepted]
        exact mem_sweepRows.mpr ⟨old.memory,listed,⟨subject,about,absent⟩,rfl⟩
      refine (only old.id ?_ old (Or.inl ((Table.find_eq_some _ _ _).mpr ⟨member,rfl⟩))).2.1
      intro same
      -- what stands under the identifier after the sweep is expired
      rw [(Table.find_eq_some _ _ _).mpr ⟨member,rfl⟩] at same
      obtain ⟨there,_⟩ := (Table.find_eq_some _ _ _).mp same.symm
      rcases MemoryTable.mem_upsertRows there with ⟨written,inside,rfl⟩ | ⟨_,apart⟩
      · cases (documentSwept_gone inside).1.symm.trans active
      · exact apart _ swept rfl
  · intro confined
    have plain (row : MemoryRow) : OfDocument env doc scope row.stored.memory ↔ OfDocument env doc scope row.memory := Iff.rfl
    have within : KeptWithin (OfDocument env doc scope) e.memories
        (run (writeNext env) e (documentLanded env e doc scope opts draws)).memories := by
      refine sections.keptWithin confined.calm (fun _ known => known) (KeptWithin.refl _ _) ?_ plain
      intro item inside subject about m inHome keyed grouped
      refine ⟨inHome.trans (MemoryScope.withDefaultTenant_withDefaultTenant scope),grouped,subject,keyed,?_⟩
      refine (underDocument_section lowercases (mem_withDraws (mem_documentLanded inside)).1 about).mpr ?_
      exact confined.named.imp_right (fun all => all item inside)
    refine KeptWithin.changes (within.upsertRows keys ?_ plain) ?_
    · intro row swept
      unfold documentSwept at swept
      split at swept
      next accepted =>
        obtain ⟨m,listed,⟨subject,about,absent⟩,rfl⟩ := mem_sweepRows.mp swept
        obtain ⟨⟨old,member,rfl⟩,inScope,_,key,keyed,under⟩ := mem_findActiveByDocument.mp listed
        have chosen : OfDocument env doc scope old.memory :=
          ⟨inScope,confined.swept accepted old.memory listed subject about absent,key,keyed,under⟩
        refine ⟨chosen,?_⟩
        intro stored there same
        rcases within stored there with kept | ⟨placed,_⟩
        · cases e.memories.eq_of_key kept member same
          exact chosen
        · exact placed
      next => cases swept
    · intro id known
      rw [MemoryTable.upsertRows_eq]
      exact Table.mem_keys_upsertAll (Or.inr (keys id known))

end

theorem documentOf_unhashed {subject : String} (apart : '#' ∉ subject.toList) : documentOf subject = subject := by
  rw [documentOf,splitOnce_eq_none.mpr apart]

theorem documentOf_joined {path : String} (apart : '#' ∉ path.toList) (rest : String) :
    documentOf (path ++ "#" ++ rest) = path := by
  have parts : (path ++ "#" ++ rest).toList = path.toList ++ '#' :: rest.toList := by simp
  rw [documentOf,parts,splitOnce_eq_some apart]
  exact String.ofList_toList

theorem hash_not_mem_documentOf (subject : String) : '#' ∉ (documentOf subject).toList := by
  unfold documentOf
  split
  next path rest parts =>
    rw [String.toList_ofList]
    exact splitOnce_apart parts
  next none => exact splitOnce_eq_none.mp none

section
variable {env : Env}

theorem documentOf_section (lowercases : env.Lowercases) {markdown : String} {opts : ChunkOptions} {chunk : Chunk × Nat}
    (listed : chunk ∈ chunkMarkdown markdown opts) (path : String) :
    documentOf (normalizeSubject env (chunk.1.subject path chunk.2)) = normalizeSubject env path ↔
      '#' ∉ path.toList ∧
        (normalizeSubject env (chunk.1.subject path chunk.2) = normalizeSubject env path ∨ PathKept path) := by
  by_cases hashed : '#' ∈ path.toList
  · refine iff_of_false ?_ (fun both => both.1 hashed)
    intro same
    apply hash_not_mem_documentOf (normalizeSubject env (chunk.1.subject path chunk.2))
    rw [same]
    exact (hash_mem_normalizeSubject lowercases path).mpr hashed
  · have apart : '#' ∉ (normalizeSubject env path).toList := fun inside =>
      hashed ((hash_mem_normalizeSubject lowercases path).mp inside)
    cases lead : chunk.1.isLead with
    | true =>
      rw [Chunk.subject_lead listed lead]
      exact iff_of_true (documentOf_unhashed apart) ⟨hashed,Or.inl rfl⟩
    | false =>
      obtain ⟨rest,joined⟩ := Chunk.subject_joined lead path chunk.2
      obtain ⟨tail,stored⟩ := normalizeSubject_hash lowercases path rest
      rw [joined,stored]
      by_cases kept : PathKept path
      · rw [if_pos kept,String.append_empty]
        exact iff_of_true (documentOf_joined apart tail) ⟨hashed,Or.inr kept⟩
      · rw [if_neg kept,documentOf_joined (by simpa using apart)]
        refine iff_of_false ?_ ?_
        · intro same
          have longer := congrArg (fun s : String => s.toList.length) same
          simp at longer
        · rintro ⟨_,same | given⟩
          · have longer := congrArg (fun s : String => s.toList.length) same
            simp at longer
          · exact kept given

/-- An active chunk of the scope and the project. -/
def Prunable (scope : MemoryScope) (project : String) (m : Memory) : Prop :=
  m.scope = scope.withDefaultTenant ∧ m.project = some project ∧ m.memType = "chunk" ∧ m.state = .active

theorem mem_listProjectChunks {t : MemoryTable} {scope : MemoryScope} {project : String} {m : Memory} :
    m ∈ t.listProjectChunks scope project ↔ (∃ row ∈ t.rows, row.memory = m) ∧ Prunable scope project m := by
  simp only [MemoryTable.listProjectChunks,MemoryTable.memories,List.mem_filter,List.mem_map,Bool.and_eq_true,
    decide_eq_true_eq,MemoryScope.matchesRow_iff,Prunable,and_assoc]

variable (env) in
/-- `document` tells for some rows the path of the document that they were cut from. -/
def Documented (document : Memory → Option String) (t : MemoryTable) : Prop :=
  ∀ row ∈ t.rows, ∀ path, document row.memory = some path → ∃ markdown opts, ∃ chunk ∈ chunkMarkdown markdown opts,
    row.memory.subject = some (normalizeSubject env (chunk.1.subject path chunk.2))

variable (env) in
/-- A chunk of the project is expired exactly when its document is not among the kept ones; other rows stay. -/
structure Prunes (document : Memory → Option String) (scope : MemoryScope) (project : String) (keep : List String)
    (before after : MemoryTable) : Prop where
  keys : after.keys = before.keys
  others : ∀ row ∈ before.rows, ¬Prunable scope project row.memory → row ∈ after.rows
  kept : ∀ row ∈ before.rows, Prunable scope project row.memory → ∀ path, document row.memory = some path →
    normalizeSubject env path ∈ keep.map (normalizeSubject env) → row ∈ after.rows
  expired : ∀ row ∈ before.rows, Prunable scope project row.memory → ∀ path, document row.memory = some path →
    normalizeSubject env path ∉ keep.map (normalizeSubject env) →
      ∃ new ∈ after.rows, new.id = row.id ∧ new.memory.state = .expired

theorem mem_pruneRows {active : List Memory} {keep : List String} {now : Int} {row : MemoryRow} :
    row ∈ pruneRows active keep now ↔ ∃ m ∈ active, (∃ subject, m.subject = some subject ∧ documentOf subject ∉ keep) ∧
      row = ⟨{ m with state := .expired, validTo := some now, updatedAt := now },none⟩ := by
  simp only [pruneRows,List.mem_map,List.mem_filter,and_assoc]
  refine exists_congr (fun m => and_congr_right (fun _ => and_congr ?_ eq_comm))
  cases m.subject with
  | none => simp
  | some subject => simp

variable {e : Engine} {scope : MemoryScope} {project : String} {keep : List String} {now : Int}

theorem documentPrune_memories : (documentPrune env e scope project keep now).2.memories = e.memories.upsertRows
    (pruneRows (e.memories.listProjectChunks scope project) (keep.map (normalizeSubject env)) now) := by
  have known : ∀ row ∈ pruneRows (e.memories.listProjectChunks scope project) (keep.map (normalizeSubject env)) now,
      row.id ∈ e.memories.keys := by
    intro row pruned
    obtain ⟨m,listed,_,rfl⟩ := mem_pruneRows.mp pruned
    obtain ⟨⟨old,member,rfl⟩,_⟩ := mem_listProjectChunks.mp listed
    exact (Table.mem_keys _ _).mpr ⟨old,member,rfl⟩
  obtain ⟨after,ok,memories,_⟩ := memoryApplyRowsBatch_known known
  simp only [documentPrune,ok]
  exact memories

theorem documentPrune_row (keep : List String) (now : Int) {row : MemoryRow} (member : row ∈ e.memories.rows) :
    (Prunable scope project row.memory ∧ (∃ subject, row.memory.subject = some subject ∧
        documentOf subject ∉ keep.map (normalizeSubject env)) →
      ∃ new ∈ (documentPrune env e scope project keep now).2.memories.rows, new.id = row.id ∧ new.memory.state = .expired) ∧
    (¬(Prunable scope project row.memory ∧ ∃ subject, row.memory.subject = some subject ∧
        documentOf subject ∉ keep.map (normalizeSubject env)) →
      row ∈ (documentPrune env e scope project keep now).2.memories.rows) := by
  rw [documentPrune_memories]
  have known : row.id ∈ (e.memories.upsertRows (pruneRows (e.memories.listProjectChunks scope project)
      (keep.map (normalizeSubject env)) now)).keys := by
    rw [MemoryTable.upsertRows_eq]
    exact Table.mem_keys_upsertAll (Or.inr ((Table.mem_keys _ _).mpr ⟨row,member,rfl⟩))
  obtain ⟨new,there,same⟩ := (Table.mem_keys _ _).mp known
  constructor
  · intro goes
    obtain ⟨prunable,named⟩ := goes
    refine ⟨new,there,same,?_⟩
    rcases MemoryTable.mem_upsertRows there with ⟨written,inside,rfl⟩ | ⟨_,apart⟩
    · obtain ⟨m,_,_,rfl⟩ := mem_pruneRows.mp inside
      rfl
    · have listed := mem_listProjectChunks.mpr ⟨⟨row,member,rfl⟩,prunable⟩
      refine absurd same.symm (apart ⟨{ row.memory with state := .expired, validTo := some now, updatedAt := now },none⟩ ?_)
      exact mem_pruneRows.mpr ⟨row.memory,listed,named,rfl⟩
  · intro stays
    rcases MemoryTable.mem_upsertRows there with ⟨written,inside,rfl⟩ | ⟨kept,_⟩
    · obtain ⟨m,listed,named,rfl⟩ := mem_pruneRows.mp inside
      obtain ⟨⟨old,there',rfl⟩,prunable⟩ := mem_listProjectChunks.mp listed
      cases e.memories.eq_of_key there' member same
      exact absurd ⟨prunable,named⟩ stays
    · cases e.memories.eq_of_key kept member same
      exact there

theorem documentPrune_exact_iff (lowercases : env.Lowercases) {document : Memory → Option String}
    (documented : Documented env document e.memories) :
    (∀ keep now, Prunes env document scope project keep e.memories (documentPrune env e scope project keep now).2.memories) ↔
      ∀ row ∈ e.memories.rows, Prunable scope project row.memory → ∀ path, document row.memory = some path →
        '#' ∉ path.toList ∧ (row.memory.subject = some (normalizeSubject env path) ∨ PathKept path) := by
  constructor
  · intro exact row member prunable path given
    obtain ⟨markdown,opts,chunk,listed,subject⟩ := documented row member path given
    rw [subject,Option.some_inj]
    refine (documentOf_section lowercases listed path).mp ?_
    -- keep the document alone: its row stays
    have there := (exact [path] 0).kept row member prunable path given (by simp)
    by_contra other
    obtain ⟨new,written,same,gone⟩ := (documentPrune_row [path] 0 member).1
      ⟨prunable,_,subject,by simpa using other⟩
    cases Table.eq_of_key _ written there same
    cases gone.symm.trans prunable.2.2.2
  · intro found keep now
    have own {row : MemoryRow} (member : row ∈ e.memories.rows) (prunable : Prunable scope project row.memory)
        {path : String} (given : document row.memory = some path) :
        ∃ subject, row.memory.subject = some subject ∧ documentOf subject = normalizeSubject env path := by
      obtain ⟨markdown,opts,chunk,listed,subject⟩ := documented row member path given
      obtain ⟨plain,either⟩ := found row member prunable path given
      rw [subject,Option.some_inj] at either
      exact ⟨_,subject,(documentOf_section lowercases listed path).mpr ⟨plain,either⟩⟩
    refine ⟨?_,?_,?_,?_⟩
    · rw [documentPrune_memories,MemoryTable.upsertRows_eq]
      refine Table.keys_upsertAll_known _ _ ?_
      intro stored inside
      obtain ⟨gone,pruned,rfl⟩ := List.mem_map.mp inside
      obtain ⟨m,listed,_,rfl⟩ := mem_pruneRows.mp pruned
      obtain ⟨⟨old,member,rfl⟩,_⟩ := mem_listProjectChunks.mp listed
      exact (Table.mem_keys _ _).mpr ⟨old,member,rfl⟩
    · intro row member apart
      exact (documentPrune_row keep now member).2 (fun both => apart both.1)
    · intro row member prunable path given among
      obtain ⟨subject,about,document⟩ := own member prunable given
      refine (documentPrune_row keep now member).2 ?_
      rintro ⟨_,other,named,absent⟩
      cases about.symm.trans named
      exact absent (document ▸ among)
    · intro row member prunable path given absent
      obtain ⟨subject,about,document⟩ := own member prunable given
      exact (documentPrune_row keep now member).1 ⟨prunable,subject,about,document ▸ absent⟩

/-- What imports and prunes of documents write. -/
theorem document_writes_confined (lowercases : env.Lowercases) :
    (∀ (e : Engine) (doc : DocumentIngest) (scope : MemoryScope) (opts : ChunkOptions) (draws : Nat → Draw) (now : Int),
      RowsRecorded e.memories →
      (∀ input ∈ documentInputs doc scope opts, (canonicalInput env input).subject ≠ none) →
      (∀ item ∈ documentItems doc scope opts draws, item.2.id ∉ e.memories.keys) →
      ((documentItems doc scope opts draws).map (fun item => item.2.id)).Nodup →
      (ChangesOnly (OfDocument env doc scope) e.memories (documentIngest env e doc scope opts draws now).2.memories ↔
        Confined env e doc scope opts draws)) ∧
    ∀ (e : Engine) (scope : MemoryScope) (project : String) (document : Memory → Option String),
      Documented env document e.memories →
      ((∀ keep now, Prunes env document scope project keep e.memories
          (documentPrune env e scope project keep now).2.memories) ↔
        ∀ row ∈ e.memories.rows, Prunable scope project row.memory → ∀ path, document row.memory = some path →
          '#' ∉ path.toList ∧ (row.memory.subject = some (normalizeSubject env path) ∨ PathKept path)) :=
  ⟨fun _ _ _ _ _ now recorded keyed fresh distinct =>
    documentIngest_changes_iff lowercases recorded keyed fresh distinct now,
    fun _ _ _ _ documented => documentPrune_exact_iff lowercases documented⟩

end

def guideStore (project text : String) : Engine :=
  (documentIngest .ascii (.empty .default 2) { guideDoc text with project := some project } (.tenant "acme") wideChunks
    (importDraws 1) 9000).2

def guidePath (m : Memory) : Option String := if m.project = some "site" then some "docs/a.md" else none

/-- A guide imported into its project changes its own rows, and prunes of the project are exact. -/
theorem document_writes_guide :
    ChangesOnly (OfDocument .ascii (guideDoc "# Run\nmake\n") (.tenant "acme"))
      (guideStore "site" "# Setup\nuse brew\n").memories
      (documentIngest .ascii (guideStore "site" "# Setup\nuse brew\n") (guideDoc "# Run\nmake\n") (.tenant "acme") wideChunks
        (importDraws 20) 90000).2.memories ∧
    ∀ keep now, Prunes .ascii guidePath (.tenant "acme") "site" keep (guideStore "site" "# Setup\nuse brew\n").memories
      (documentPrune .ascii (guideStore "site" "# Setup\nuse brew\n") (.tenant "acme") "site" keep now).2.memories := by
  obtain ⟨imports,prunes⟩ := document_writes_confined ascii_lowercases
  constructor
  · refine (imports _ _ _ _ _ _ ?_ ?_ ?_ ?_).mpr ⟨Or.inl ?_,?_,?_⟩
    · exact documentIngest_recorded (by simp [RowsRecorded,Engine.empty,Table.empty]) (by decide +kernel)
        (by decide +kernel) (by decide +kernel) 9000
    · decide +kernel
    · decide +kernel
    · decide +kernel
    · decide +kernel
    · intro review
      cases (show (guideStore "site" "# Setup\nuse brew\n").config.cognition.contradictionReview = false by
        decide +kernel).symm.trans review
    · intro _ m listed _ _ _
      have grouped : ∀ m ∈ (guideStore "site" "# Setup\nuse brew\n").memories.findActiveByDocument .ascii (.tenant "acme")
          "docs/a.md", m.project = some "site" := by decide +kernel
      exact grouped m listed
  · have about : ∀ row ∈ (guideStore "site" "# Setup\nuse brew\n").memories.rows,
        row.memory.subject = some "docs/a.md#setup" := by decide +kernel
    have named {m : Memory} {path : String} (given : guidePath m = some path) : path = "docs/a.md" := by
      unfold guidePath at given
      split at given
      next => exact (Option.some.inj given).symm
      next => cases given
    refine (prunes _ _ _ _ ?_).mpr ?_
    · intro row member path given
      rw [about row member,named given]
      exact ⟨"# Setup\nuse brew\n",wideChunks,by decide +kernel⟩
    · intro row _ _ path given
      rw [named given]
      exact ⟨by decide,Or.inr (by decide +kernel)⟩

/-- The sweep of an import reaches the section that another project has under the same path. -/
theorem import_sweeps_other_project : ¬ChangesOnly (OfDocument .ascii (guideDoc "# Run\nmake\n") (.tenant "acme"))
    (guideStore "api" "# Setup\nuse brew\n").memories
    (documentIngest .ascii (guideStore "api" "# Setup\nuse brew\n") (guideDoc "# Run\nmake\n") (.tenant "acme") wideChunks
      (importDraws 20) 90000).2.memories := by
  intro only
  have before : ((guideStore "api" "# Setup\nuse brew\n").memories.find ⟨1⟩).map (fun row =>
      (row.memory.state,row.memory.project)) = some (.active,some "api") := by decide +kernel
  have after : ((documentIngest .ascii (guideStore "api" "# Setup\nuse brew\n") (guideDoc "# Run\nmake\n") (.tenant "acme")
      wideChunks (importDraws 20) 90000).2.memories.find ⟨1⟩).map (fun row => row.memory.state) = some .expired := by
    decide +kernel
  obtain ⟨row,found,same⟩ := Option.map_eq_some_iff.mp before
  obtain ⟨active,grouped⟩ := Prod.mk.inj same
  have chosen := only ⟨1⟩ ?_ row (Or.inl found)
  · exact absurd (grouped.symm.trans chosen.2.1) (by decide)
  · intro kept
    rw [← kept,found] at after
    cases (Option.some.inj after).symm.trans active

end Ecphoria
