import Ecphoria.Library.Stamped
import Ecphoria.Library.Markup
import Ecphoria.Engine.Listing

/-! What a tenant publishes, for anyone to read. A listing is kept for a while; requests that find none read the table, several
at a time; and a page of it says what the memories say, in its own markup. -/
namespace Ecphoria
open Library

/-- What the public is told of a memory. -/
structure PublicItem where
  subject : Option String
  content : String
  updatedAt : Int

def publicItem (m : Memory) : PublicItem := ⟨m.subject,m.content,m.updatedAt⟩

def byUpdatedAt (a b : Memory) : Prop := b.updatedAt ≤ a.updatedAt

section
/- `extract` is the engine's `json_extract_string`. -/
variable (extract : Json → String → Option String)

def isPublished (tenant : String) (m : Memory) : Bool :=
  m.scope.tenantId = tenant && m.state = .active && extract m.metadata "published" = some "true"

def MemoryTable.listPublished (order : QueryOrder byUpdatedAt) (t : MemoryTable) (tenant : String) (limit : Nat) : List Memory :=
  (order.sort (t.memories.filter (isPublished extract tenant))).take (max 1 (min limit 100000))

def memoryPublished (order : QueryOrder byUpdatedAt) (maxRows : Nat) (t : MemoryTable) (tenant : String) (limit : Nat) :
    List Memory :=
  t.listPublished extract order tenant (min limit maxRows)

end

/-- `PUBLISH_CACHE_TTL`, in nanoseconds. -/
def publishCacheTtl : Nat := 15000000000

/-- The table, the last listing, and for each request in flight what it has read so far. -/
structure PublishState where
  table : MemoryTable
  cache : Stamped Unit (List PublicItem)
  scans : Nat → Option (Option (List PublicItem))

inductive PublishEvent where
  | write (table : MemoryTable)
  | request (r : Nat) (now : Int)
  | scan (r : Nat) (read : Except String (QueryOrder byUpdatedAt))
  | finish (r : Nat) (now : Int)

structure PublishEffect where
  answers : List (Nat × Except String (List PublicItem))
  stored : List (Unit × List PublicItem × Int)

namespace PublishState

def start (table : MemoryTable) : PublishState := ⟨table,fun _ => none,fun _ => none⟩

section
variable (extract : Json → String → Option String) (maxRows : Nat) (tenant : String)

/-- `published_items`, in the steps between which others run. -/
def act (s : PublishState) : PublishEvent → PublishEffect × PublishState
  | .write table => (⟨[],[]⟩,{ s with table := table })
  | .request r now =>
    match s.scans r with
    | some _ => (⟨[],[]⟩,s)
    | none =>
      match s.cache.fresh publishCacheTtl () now with
      | some items => (⟨[(r,.ok items)],[]⟩,s)
      | none => (⟨[],[]⟩,{ s with scans := Function.update s.scans r (some none) })
  | .scan r read =>
    match s.scans r with
    | some none =>
      match read with
      | .error e => (⟨[(r,.error e)],[]⟩,{ s with scans := Function.update s.scans r none })
      | .ok order =>
        let items := (memoryPublished extract order maxRows s.table tenant 500).map publicItem
        (⟨[],[]⟩,{ s with scans := Function.update s.scans r (some (some items)) })
    | _ => (⟨[],[]⟩,s)
  | .finish r now =>
    match s.scans r with
    | some (some items) =>
      (⟨[(r,.ok items)],[((),items,now)]⟩,⟨s.table,s.cache.store ((),items,now),Function.update s.scans r none⟩)
    | _ => (⟨[],[]⟩,s)

def effect (s : PublishState) (i : PublishEvent) : PublishEffect := (s.act extract maxRows tenant i).1

def step (s : PublishState) (i : PublishEvent) : PublishState := (s.act extract maxRows tenant i).2

end

end PublishState

/-- What a listing has to be: the first of the published memories of the tenant, each once, the newest first. -/
def Lists (extract : Json → String → Option String) (maxRows : Nat) (tenant : String) (t : MemoryTable) (items : List PublicItem) :
    Prop :=
  ∃ rows : List Memory,rows.Perm (t.memories.filter (isPublished extract tenant)) ∧ rows.Pairwise byUpdatedAt ∧
    items = (rows.take (max 1 (min 500 maxRows))).map publicItem

section
variable {extract : Json → String → Option String} {maxRows : Nat} {tenant : String}

theorem memoryPublished_lists (order : QueryOrder byUpdatedAt) (t : MemoryTable) :
    Lists extract maxRows tenant t ((memoryPublished extract order maxRows t tenant 500).map publicItem) := by
  have cap : max 1 (min (min 500 maxRows) 100000) = max 1 (min 500 maxRows) := by omega
  unfold memoryPublished MemoryTable.listPublished
  rw [cap]
  exact ⟨_,order.perm _,order.sorted _,rfl⟩

/-- The request read the items while it was in flight, and is still. -/
def ReadBy (extract : Json → String → Option String) (maxRows : Nat) (tenant : String) (table : MemoryTable)
    (inputs : List PublishEvent) (r : Nat) (items : List PublicItem) : Prop :=
  ∃ first rest,inputs = first ++ rest ∧ (run (PublishState.step extract maxRows tenant) (.start table) first).scans r = some none ∧
    Lists extract maxRows tenant (run (PublishState.step extract maxRows tenant) (.start table) first).table items ∧
    ∀ now, .finish r now ∉ rest

/-- Items were kept when a request that had read them ended. -/
def KeptBy (extract : Json → String → Option String) (maxRows : Nat) (tenant : String) (table : MemoryTable)
    (inputs : List PublishEvent) (items : List PublicItem) (stored : Int) : Prop :=
  ∃ before after r,inputs = before ++ .finish r stored :: after ∧ ReadBy extract maxRows tenant table before r items

structure Truthful (extract : Json → String → Option String) (maxRows : Nat) (tenant : String) (table : MemoryTable)
    (inputs : List PublishEvent) (s : PublishState) : Prop where
  reads : ∀ r items, s.scans r = some (some items) → ReadBy extract maxRows tenant table inputs r items
  keeps : ∀ items stored, s.cache () = some (items,stored) → KeptBy extract maxRows tenant table inputs items stored

variable {table : MemoryTable} {inputs : List PublishEvent}

theorem ReadBy.snoc {r : Nat} {items : List PublicItem} (read : ReadBy extract maxRows tenant table inputs r items) {i : PublishEvent}
    (goes : ∀ now, i ≠ .finish r now) : ReadBy extract maxRows tenant table (inputs ++ [i]) r items := by
  obtain ⟨first,rest,rfl,asked,lists,open_⟩ := read
  refine ⟨first,rest ++ [i],List.append_assoc first rest [i],asked,lists,fun now inside => ?_⟩
  rcases List.mem_append.mp inside with before | here
  · exact open_ now before
  · exact goes now (List.mem_singleton.mp here).symm

theorem KeptBy.snoc {items : List PublicItem} {stored : Int} (kept : KeptBy extract maxRows tenant table inputs items stored)
    (i : PublishEvent) : KeptBy extract maxRows tenant table (inputs ++ [i]) items stored := by
  obtain ⟨before,after,r,rfl,read⟩ := kept
  exact ⟨before,after ++ [i],r,by rw [List.append_assoc]; rfl,read⟩

/-- What an event comes to. -/
inductive Moved (extract : Json → String → Option String) (maxRows : Nat) (tenant : String) (s : PublishState) :
    PublishEvent → PublishEffect × PublishState → Prop
  | write (t : MemoryTable) : Moved extract maxRows tenant s (.write t) (⟨[],[]⟩,{ s with table := t })
  | idle (i : PublishEvent) (quiet : ∀ r items, s.scans r = some (some items) → ∀ now, i ≠ .finish r now) :
      Moved extract maxRows tenant s i (⟨[],[]⟩,s)
  | kept (r : Nat) (now : Int) (items : List PublicItem) (held : s.cache.fresh publishCacheTtl () now = some items) :
      Moved extract maxRows tenant s (.request r now) (⟨[(r,.ok items)],[]⟩,s)
  | asks (r : Nat) (now : Int) :
      Moved extract maxRows tenant s (.request r now) (⟨[],[]⟩,{ s with scans := Function.update s.scans r (some none) })
  | fails (r : Nat) (e : String) :
      Moved extract maxRows tenant s (.scan r (.error e)) (⟨[(r,.error e)],[]⟩,{ s with scans := Function.update s.scans r none })
  | reads (r : Nat) (order : QueryOrder byUpdatedAt) (items : List PublicItem) (asked : s.scans r = some none)
      (lists : Lists extract maxRows tenant s.table items) :
      Moved extract maxRows tenant s (.scan r (.ok order)) (⟨[],[]⟩,{ s with scans := Function.update s.scans r (some (some items)) })
  | ends (r : Nat) (now : Int) (items : List PublicItem) (read : s.scans r = some (some items)) :
      Moved extract maxRows tenant s (.finish r now)
        (⟨[(r,.ok items)],[((),items,now)]⟩,⟨s.table,s.cache.store ((),items,now),Function.update s.scans r none⟩)

theorem act_moved (s : PublishState) (i : PublishEvent) : Moved extract maxRows tenant s i (s.act extract maxRows tenant i) := by
  cases i with
  | write t => exact .write t
  | request r now =>
    rw [PublishState.act]
    split
    next => exact .idle _ (fun _ _ _ _ => nofun)
    next =>
      split
      next items held => exact .kept r now items held
      next => exact .asks r now
  | scan r read =>
    rw [PublishState.act.eq_def]
    dsimp only
    split
    next asked =>
      cases read with
      | error e => exact .fails r e
      | ok order => exact .reads r order _ asked (memoryPublished_lists order s.table)
    next => exact .idle _ (fun _ _ _ _ => nofun)
  | finish r now =>
    rw [PublishState.act]
    split
    next items read => exact .ends r now items read
    next unread =>
      refine .idle _ (fun q items held at_ same => ?_)
      cases same
      exact unread items held

theorem read_update {scans : Nat → Option (Option (List PublicItem))} {r q : Nat} {put : Option (Option (List PublicItem))}
    {items : List PublicItem} (held : Function.update scans r put q = some (some items)) :
    q = r ∧ put = some (some items) ∨ q ≠ r ∧ scans q = some (some items) := by
  by_cases one : q = r
  · rw [one,Function.update_self] at held
    exact .inl ⟨one,held⟩
  · rw [Function.update_of_ne one] at held
    exact .inr ⟨one,held⟩

theorem truthful_step (truthful : Truthful extract maxRows tenant table inputs
      (run (PublishState.step extract maxRows tenant) (.start table) inputs)) (i : PublishEvent) :
    Truthful extract maxRows tenant table (inputs ++ [i])
      (run (PublishState.step extract maxRows tenant) (.start table) (inputs ++ [i])) := by
  rw [run_append,run_cons,run_nil,PublishState.step]
  generalize here : run (PublishState.step extract maxRows tenant) (.start table) inputs = s at truthful ⊢
  have keeps (items : List PublicItem) (stored : Int) (held : s.cache () = some (items,stored)) :=
    (truthful.keeps items stored held).snoc i
  have moved : Moved extract maxRows tenant s i (s.act extract maxRows tenant i) := act_moved s i
  generalize s.act extract maxRows tenant i = done at moved
  cases moved with
  | write t => exact ⟨fun r items held => (truthful.reads r items held).snoc nofun,keeps⟩
  | idle i quiet => exact ⟨fun r items held => (truthful.reads r items held).snoc (quiet r items held),keeps⟩
  | kept r now items held => exact ⟨fun r items held => (truthful.reads r items held).snoc nofun,keeps⟩
  | asks r now =>
    refine ⟨fun q items held => ?_,keeps⟩
    rcases read_update held with ⟨_,none⟩ | ⟨_,before⟩
    · cases none
    · exact (truthful.reads q items before).snoc nofun
  | fails r e =>
    refine ⟨fun q items held => ?_,keeps⟩
    rcases read_update held with ⟨_,none⟩ | ⟨_,before⟩
    · cases none
    · exact (truthful.reads q items before).snoc nofun
  | reads r order listing asked lists =>
    refine ⟨fun q items held => ?_,keeps⟩
    rcases read_update held with ⟨rfl,own⟩ | ⟨_,before⟩
    · obtain rfl := Option.some_inj.mp (Option.some_inj.mp own)
      exact ⟨inputs,[.scan q (.ok order)],rfl,here ▸ asked,here ▸ lists,fun now inside => nomatch List.mem_singleton.mp inside⟩
    · exact (truthful.reads q items before).snoc nofun
  | ends r now listing read =>
    refine ⟨fun q items held => ?_,fun items stored held => ?_⟩
    · rcases read_update held with ⟨_,none⟩ | ⟨other,before⟩
      · cases none
      · refine (truthful.reads q items before).snoc (fun at_ same => ?_)
        cases same
        exact other rfl
    · obtain ⟨rfl,rfl⟩ := Prod.mk.inj (Option.some_inj.mp held)
      exact ⟨inputs,[],r,rfl,truthful.reads r listing read⟩

theorem run_truthful (table : MemoryTable) (inputs : List PublishEvent) : Truthful extract maxRows tenant table inputs
    (run (PublishState.step extract maxRows tenant) (.start table) inputs) := by
  induction inputs using List.reverseRecOn with
  | nil => exact ⟨nofun,nofun⟩
  | append_singleton inputs i ih => exact truthful_step ih i

end

/-- Over every run, whatever is written and in whatever order the requests go on: an answer is what the table had to show while
the request was in flight, or what another request read so and kept less than the time to live ago. -/
theorem publicMemories_law (extract : Json → String → Option String) (maxRows : Nat) (tenant : String) (table : MemoryTable)
    (inputs : List PublishEvent) (i : PublishEvent) (r : Nat) (items : List PublicItem)
    (answered : (r,.ok items) ∈ ((run (PublishState.step extract maxRows tenant) (.start table) inputs).effect extract maxRows
      tenant i).answers) :
    (∃ now,i = .finish r now ∧ ReadBy extract maxRows tenant table inputs r items) ∨
      ∃ now stored,i = .request r now ∧ (now - stored).toNat < publishCacheTtl ∧
        KeptBy extract maxRows tenant table inputs items stored := by
  have truthful : Truthful extract maxRows tenant table inputs (run (PublishState.step extract maxRows tenant) (.start table) inputs) :=
    run_truthful table inputs
  generalize run (PublishState.step extract maxRows tenant) (.start table) inputs = s at truthful answered
  rw [PublishState.effect] at answered
  have moved : Moved extract maxRows tenant s i (s.act extract maxRows tenant i) := act_moved s i
  generalize s.act extract maxRows tenant i = done at moved answered
  cases moved with
  | write t => cases answered
  | idle i quiet => cases answered
  | asks r now => cases answered
  | reads r order listing asked lists => cases answered
  | fails r e => cases List.mem_singleton.mp answered
  | kept q now listing held =>
    cases List.mem_singleton.mp answered
    obtain ⟨⟨_,stored⟩,last,young⟩ := Option.bind_eq_some_iff.mp held
    split at young
    next fresh =>
      cases young
      exact .inr ⟨now,stored,rfl,fresh,truthful.keeps _ stored last⟩
    next => cases young
  | ends q now listing read =>
    cases List.mem_singleton.mp answered
    exact .inl ⟨now,rfl,truthful.reads r items read⟩

theorem byUpdatedAt_total (a b : Memory) : byUpdatedAt a b ∨ byUpdatedAt b a := le_total b.updatedAt a.updatedAt

instance : DecidableRel byUpdatedAt := fun a b => inferInstanceAs (Decidable (b.updatedAt ≤ a.updatedAt))

section
private def publishedRow : MemoryRow :=
  ⟨{ Memory.new 1 0 (.tenant "acme") "tea" with metadata := .obj [("published",.bool true)] },none⟩

private def textOf (metadata : Json) (key : String) : Option String :=
  match metadata.get key with
  | some (.bool b) => some (if b then "true" else "false")
  | some (.str s) => some s
  | _ => none

private def updated : QueryOrder byUpdatedAt := .stable byUpdatedAt byUpdatedAt_total (fun _ _ _ first second => le_trans second first)

/-- A request reads the table, its listing is kept, and the memory is gone when another one asks. -/
private def asked : List PublishEvent := [.request 0 0,.scan 0 (.ok updated),.finish 0 5,.write .empty]

theorem publicMemories_kept :
    (∃ now,PublishEvent.request 1 9 = .finish 1 now ∧ ReadBy textOf 1000 "acme" (MemoryTable.upsertRows .empty [publishedRow]) asked 1
      [⟨none,"tea",0⟩]) ∨
      ∃ now stored,PublishEvent.request 1 9 = .request 1 now ∧ (now - stored).toNat < publishCacheTtl ∧
        KeptBy textOf 1000 "acme" (MemoryTable.upsertRows .empty [publishedRow]) asked [⟨none,"tea",0⟩] stored := by
  refine publicMemories_law textOf 1000 "acme" _ asked (.request 1 9) 1 [⟨none,"tea",0⟩] ?_
  have answers : ((run (PublishState.step textOf 1000 "acme") (.start (MemoryTable.upsertRows .empty [publishedRow])) asked).effect
      textOf 1000 "acme" (.request 1 9)).answers = [(1,.ok [⟨none,"tea",0⟩])] := by with_unfolding_all rfl
  rw [answers]
  exact List.mem_singleton_self _

end

/-- `esc` -/
def esc (s : String) : String := String.ofList (escaped s.toList)

def PublicItem.heading (item : PublicItem) : String := item.subject.getD ""

def PublicItem.card (item : PublicItem) : String :=
  let head := if item.heading.isEmpty then "" else "<h3>" ++ esc item.heading ++ "</h3>"
  "<article>" ++ head ++ "<p>" ++ esc item.content ++ "</p></article>"

def publicHead : String :=
  "<!doctype html><html><head><meta charset=utf-8><meta name=viewport content='width=device-width,initial-scale=1'>" ++
  "<title>Published memories</title><style>body\x7bmax-width:720px;margin:2rem auto;padding:0 1rem;font:16px/1.6 system-ui,sans-serif;color:#222\x7d" ++
  "article\x7bborder-bottom:1px solid #eee;padding:1rem 0\x7dh3\x7bmargin:0 0 .3rem\x7dp\x7bmargin:0;white-space:pre-wrap\x7d" ++
  "footer\x7bcolor:#888;font-size:13px;margin-top:2rem\x7d</style></head><body>" ++
  "<h1>Published memories</h1>"

def publicFoot (count : Nat) : String := "<footer>" ++ toString count ++ " memories · powered by Ecphoria</footer></body></html>"

/-- `public_index` -/
def publicIndex (items : List PublicItem) : String :=
  let cards := String.join (items.map PublicItem.card)
  publicHead ++ (if cards.isEmpty then "<p>Nothing published yet.</p>" else cards) ++ publicFoot items.length

/-- The markup of an item, with its own texts. -/
def PublicItem.markup (item : PublicItem) : List Tagged :=
  ("article".toList,[]) ::
    ((if item.heading.isEmpty then [] else [("h3".toList,item.heading.toList),("/h3".toList,[])]) ++
      [("p".toList,item.content.toList),("/p".toList,[]),("/article".toList,[])])

def PublicItem.parts (item : PublicItem) : List Tagged := item.markup.map (fun part => (part.1,escaped part.2))

theorem PublicItem.card_written (item : PublicItem) : item.card.toList = written item.parts := by
  unfold PublicItem.card PublicItem.parts PublicItem.markup
  split
  next => simp [esc,written,escaped_eq]
  next => simp [esc,written,escaped_eq]

theorem PublicItem.markup_names (item : PublicItem) : ∀ part ∈ item.markup, '<' ∉ part.1 ∧ '>' ∉ part.1 := by
  unfold PublicItem.markup
  split
  next => simp
  next => simp

theorem PublicItem.parts_plain (item : PublicItem) : ∀ part ∈ item.parts, part.Plain := by
  intro part inside
  obtain ⟨own,listed,rfl⟩ := List.mem_map.mp inside
  obtain ⟨opens,closes⟩ := item.markup_names own listed
  exact ⟨opens,closes,escaped_plain own.2⟩

theorem PublicItem.tags_parts (item : PublicItem) : item.parts.map (fun part => (part.1,unescaped part.2)) = item.markup := by
  rw [PublicItem.parts,List.map_map]
  exact (List.map_congr_left fun part _ => congrArg (Prod.mk part.1) (unescaped_escaped part.2)).trans (List.map_id _)

theorem cards_written (items : List PublicItem) :
    (String.join (items.map PublicItem.card)).toList = written (items.flatMap PublicItem.parts) := by
  induction items with
  | nil => rfl
  | cons item items ih =>
    rw [List.map_cons,String.join_cons,String.toList_append,ih,PublicItem.card_written,List.flatMap_cons,written,written,written,
      List.flatMap_append]

theorem publicFoot_tag (count : Nat) : ∃ rest,(publicFoot count).toList = '<' :: rest := by
  rw [publicFoot,String.append_assoc,String.toList_append]
  exact ⟨"footer>".toList ++ (toString count ++ " memories · powered by Ecphoria</footer></body></html>").toList,rfl⟩

theorem body_tags (items : List PublicItem) :
    let cards := String.join (items.map PublicItem.card)
    let body := (if cards.isEmpty then "<p>Nothing published yet.</p>" else cards).toList
    (∃ rest,body = '<' :: rest) ∧
      tags body = if items = [] then tags "<p>Nothing published yet.</p>".toList else items.flatMap PublicItem.markup := by
  intro cards body
  have shape : cards.toList = written (items.flatMap PublicItem.parts) := cards_written items
  cases items with
  | nil =>
    have none : body = "<p>Nothing published yet.</p>".toList := rfl
    exact ⟨⟨"p>Nothing published yet.</p>".toList,none.trans (by decide)⟩,congrArg tags none⟩
  | cons item items =>
    have first : ∃ rest,cards.toList = '<' :: rest := by
      rw [shape,List.flatMap_cons,PublicItem.parts,PublicItem.markup,List.map_cons]
      exact ⟨_,rfl⟩
    have some : cards.isEmpty = false := by
      obtain ⟨rest,starts⟩ := first
      rw [Bool.eq_false_iff]
      intro none
      rw [String.isEmpty_iff.mp none] at starts
      cases starts
    have whole : body = cards.toList := by
      change (if cards.isEmpty = true then "<p>Nothing published yet.</p>" else cards).toList = cards.toList
      rw [some]
      rfl
    refine ⟨whole ▸ first,?_⟩
    rw [whole,shape,if_neg (List.cons_ne_nil item items),tags_written,List.map_flatMap]
    · exact congrArg (fun f => (item :: items).flatMap f) (funext PublicItem.tags_parts)
    · intro part inside
      obtain ⟨own,_,listed⟩ := List.mem_flatMap.mp inside
      exact own.parts_plain part listed

/-- A page has the markup of its frame and of its items, which depends on no more than how many they are and which have a
heading, and between the tags of an item a reader finds its texts as they are. -/
theorem publicIndex_law (items : List PublicItem) : tags (publicIndex items).toList = tags publicHead.toList ++
    ((if items = [] then tags "<p>Nothing published yet.</p>".toList else items.flatMap PublicItem.markup) ++
      tags (publicFoot items.length).toList) := by
  obtain ⟨⟨rest,starts⟩,read⟩ := body_tags items
  obtain ⟨foot,ends⟩ := publicFoot_tag items.length
  rw [← read,publicIndex,String.toList_append,String.toList_append,List.append_assoc,starts,ends,List.cons_append,tags_append,
    ← List.cons_append,tags_append]

end Ecphoria
