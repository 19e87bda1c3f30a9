import Mathlib.Data.List.Nodup
import Scoping.Proofs.Change.Remark
import Scoping.Proofs.Session.Balance

/-!
# Numbers of requested files

Every request of a unit goes to two lists, that of the unit and that of the session, and each drops
what it has already. A request is answered with the place of its file in the list of the session, so
files are numbered in the order in which they are first asked for (`Import.Numbers`), and what the
nodes of all units are noted with tells their files apart
(`Session.History.handles_identify_paths`).
-/

namespace Scoping

theorem UnixPath.same_iff {p q : UnixPath} : p.same q = true ↔ p.components = q.components := by
  rw [same, beq_iff_eq]

namespace Import

/-- The requests without the later ones for a file that is already there. -/
def distinct (requests : List ImportRequest) : List ImportRequest :=
  requests.eraseDupsBy fun r r' => r.path.same r'.path

/-- What tells files apart. -/
def keys (files : List ImportRequest) : List (UnixPath.Head × List (List Char)) :=
  files.map fun r => r.path.components

theorem any_same_iff {files : List ImportRequest} {r : ImportRequest} :
    files.any (·.path.same r.path) = true ↔ r.path.components ∈ keys files := by
  simp only [List.any_eq_true, UnixPath.same_iff, keys, List.mem_map]

theorem foldl_note (files requests : List ImportRequest) :
    requests.foldl note files =
      files ++ distinct (requests.filter fun r => !files.any (·.path.same r.path)) := by
  induction requests generalizing files with
  | nil => simp [distinct]
  | cons r rest ih =>
    rw [List.foldl_cons, ih, note]
    by_cases hr : files.any (·.path.same r.path) = true
    · rw [if_pos hr, List.filter_cons_of_neg (by simp [hr])]
    · have hcomm : ∀ q : ImportRequest, r.path.same q.path = q.path.same r.path := fun q => by
        rw [Bool.eq_iff_iff, UnixPath.same_iff, UnixPath.same_iff, eq_comm]
      rw [if_neg hr, List.filter_cons_of_pos (by simp [hr]), distinct, distinct,
        List.eraseDupsBy_cons, List.filter_filter, List.append_assoc, List.singleton_append]
      simp [hcomm, Bool.and_comm]

theorem foldl_note_nil (requests : List ImportRequest) :
    requests.foldl note [] = distinct requests := by
  simp [foldl_note]

/-- The files are those that have been asked for, each once, and every answer is the place of its
file. -/
structure Numbers (asked : List Inquiry) (files : List ImportRequest) : Prop where
  files_eq : files = (asked.map (·.request)).foldl note []
  subset : files ⊆ asked.map (·.request)
  nodup : (keys files).Nodup
  place : ∀ e ∈ asked, (keys files)[e.handle.number]? = some e.request.path.components

namespace Numbers

variable {asked : List Inquiry} {files : List ImportRequest}

protected theorem nil : Numbers [] [] := ⟨rfl, nofun, List.nodup_nil, nofun⟩

/-- The request is for a file that is there. -/
theorem repeated (h : Numbers asked files) (id : NodeId) {r : ImportRequest}
    (hr : files.any (·.path.same r.path) = true) :
    Numbers (asked ++ [⟨id, r, ⟨files.findIdx (·.path.same r.path)⟩⟩]) files := by
  refine ⟨?_, fun file hfile => ?_, h.nodup, fun e he => ?_⟩
  · rw [List.map_append, List.foldl_append, ← h.files_eq]
    exact (if_pos hr).symm
  · rw [List.map_append]
    exact List.mem_append_left _ (h.subset hfile)
  · rcases List.mem_append.mp he with he | he
    · exact h.place e he
    · obtain rfl := List.mem_singleton.mp he
      have hlt := List.findIdx_lt_length.mpr (List.any_eq_true.mp hr)
      rw [keys, List.getElem?_map, List.getElem?_eq_getElem hlt]
      exact congrArg some (UnixPath.same_iff.mp (List.findIdx_getElem (w := hlt)))

/-- The request is for a new file. -/
theorem new (h : Numbers asked files) (id : NodeId) {r : ImportRequest}
    (hr : ¬ files.any (·.path.same r.path) = true) :
    Numbers (asked ++ [⟨id, r, ⟨files.findIdx (·.path.same r.path)⟩⟩]) (files ++ [r]) := by
  have hkeys : keys (files ++ [r]) = keys files ++ [r.path.components] := List.map_append
  refine ⟨?_, ?_, ?_, fun e he => ?_⟩
  · rw [List.map_append, List.foldl_append, ← h.files_eq]
    exact (if_neg hr).symm
  · rw [List.map_append]
    exact List.append_subset.mpr
      ⟨List.subset_append_of_subset_left _ h.subset, List.subset_append_right _ _⟩
  · rw [hkeys, ← List.concat_eq_append]
    exact h.nodup.concat fun hmem => hr (any_same_iff.mpr hmem)
  · rw [hkeys]
    rcases List.mem_append.mp he with he | he
    · have hplace := h.place e he
      rw [List.getElem?_append_left (List.getElem?_eq_some_iff.mp hplace).1, hplace]
    · obtain rfl := List.mem_singleton.mp he
      have hlast : files.findIdx (·.path.same r.path) = (keys files).length := by
        rw [keys, List.length_map, List.findIdx_eq_length]
        exact fun file hfile => Bool.eq_false_iff.mpr fun hsame =>
          hr (List.any_eq_true.mpr ⟨file, hfile, hsame⟩)
      rw [hlast]
      exact List.getElem?_concat_length

/-- One more request is registered. -/
theorem register (h : Numbers asked files) (id : NodeId) (r : ImportRequest) :
    Numbers (asked ++ [⟨id, r, ((Loader.counting files).register r).1⟩]) (note files r) := by
  rw [note]
  split
  next hr => exact h.repeated id hr
  next hr => exact h.new id hr

/-- The same number is the same file. -/
theorem handle_eq_iff (h : Numbers asked files) {e e' : Inquiry} (he : e ∈ asked)
    (he' : e' ∈ asked) : e.handle = e'.handle ↔ e.request.path.same e'.request.path = true := by
  rw [UnixPath.same_iff]
  have hplace := h.place e he
  have hplace' := h.place e' he'
  constructor
  · intro heq
    rw [heq, hplace'] at hplace
    exact (Option.some.inj hplace).symm
  · intro heq
    rw [heq, ← hplace'] at hplace
    have hlt := (List.getElem?_eq_some_iff.mp (h.place e he)).1
    exact congrArg SourceHandle.mk ((List.getElem?_inj hlt h.nodup).mp hplace)

/-- No number is left out. -/
theorem exists_handle (h : Numbers asked files) {i : Nat} (hi : i < files.length) :
    ∃ e ∈ asked, e.handle.number = i := by
  obtain ⟨e, he, hrequest⟩ := List.mem_map.mp (h.subset (List.getElem_mem hi))
  have hplace := h.place e he
  have hkey : (keys files)[i]? = some e.request.path.components := by
    rw [keys, List.getElem?_map, List.getElem?_eq_getElem hi, hrequest, Option.map_some]
  exact ⟨e, he, (List.getElem?_inj (List.getElem?_eq_some_iff.mp hplace).1 h.nodup).mp
    (hplace.trans hkey.symm)⟩

theorem eq_distinct (h : Numbers asked files) : files = distinct (asked.map (·.request)) := by
  rw [h.files_eq, foldl_note_nil]

end Numbers

end Import

/-! ### One unit -/

namespace Tree

variable {t t' : Tree} {config : Config} {id : NodeId} {handle : SourceHandle} {file : UnixPath}

/-- The node is a request for the file and is noted with the number. -/
def Requires (config : Config) (t : Tree) (id : NodeId) (handle : SourceHandle)
    (file : UnixPath) : Prop :=
  ∃ node path foreign value raw, t.node? id = some node ∧ node.kind = .require path foreign ∧
    t.noted? (·.answer?) id = some (handle, some value) ∧ value.str? = some raw ∧
    file = Import.resolve config (UnixPath.mk t.file).directory foreign raw

theorem Requires.of_extends (h : t.Requires config id handle file) (htree : t.Extends t')
    (hanswer : t'.noted? (·.answer?) id = t.noted? (·.answer?) id) :
    t'.Requires config id handle file := by
  obtain ⟨node, path, foreign, value, raw, hnode, hkind, hnote, hvalue, rfl⟩ := h
  obtain ⟨node', hnode', hkind', -⟩ := htree.node? hnode
  exact ⟨node', path, foreign, value, raw, hnode', hkind'.trans hkind, hanswer.trans hnote, hvalue,
    by rw [htree.file]⟩

theorem noted?_handle (t : Tree) (id : NodeId) :
    t.noted? (·.handle) id = (t.noted? (·.answer?) id).map Prod.fst := by
  rw [noted?, noted?]
  cases t.node? id with
  | none => rfl
  | some node => simp [ Annotation.answer?, Function.comp_def]

theorem Requires.unique {handle' : SourceHandle} {file' : UnixPath}
    (h : t.Requires config id handle file) (h' : t.Requires config id handle' file') :
    handle = handle' ∧ file = file' := by
  obtain ⟨node, path, foreign, value, raw, hnode, hkind, hnote, hvalue, rfl⟩ := h
  obtain ⟨node', path', foreign', value', raw', hnode', hkind', hnote', hvalue', rfl⟩ := h'
  cases hnode.symm.trans hnode'
  cases hkind.symm.trans hkind'
  cases hnote.symm.trans hnote'
  cases hvalue.symm.trans hvalue'
  exact ⟨rfl, rfl⟩

end Tree

/-- What a unit asks for: its tree before and after the analysis, the requests that its report
lists, and all that it has asked for in the order of the walk. -/
structure Visit where
  before : Tree
  after : Tree
  requests : List ImportRequest
  inquiries : List Inquiry

namespace Visit

/-- The node of the unit has asked for the file and received the number. -/
def Receives (config : Config) (v : Visit) (id : NodeId) (handle : SourceHandle)
    (file : UnixPath) : Prop :=
  (∃ e ∈ v.inquiries, e.node = id) ∧ v.after.Requires config id handle file

/-- The requests are those that were made, and so are the notes of nodes. -/
structure Sound (config : Config) (v : Visit) : Prop where
  requests : v.requests = (v.inquiries.map (·.request)).foldl Import.note []
  answers : ∀ e ∈ v.inquiries, ∃ e' ∈ v.inquiries, e'.node = e.node ∧
    v.after.Requires config e.node e'.handle e'.request.path
  others : ∀ id, (∀ e ∈ v.inquiries, e.node ≠ id) →
    v.after.noted? (·.answer?) id = v.before.noted? (·.answer?) id

/-- The number that a node has received is the last one that it was given. -/
theorem Sound.exists_inquiry {config : Config} {v : Visit} {id : NodeId} {handle : SourceHandle}
    {file : UnixPath} (hv : v.Sound config) (h : v.Receives config id handle file) :
    ∃ e ∈ v.inquiries, e.node = id ∧ e.handle = handle ∧ e.request.path = file := by
  obtain ⟨⟨e, he, rfl⟩, hrequires⟩ := h
  obtain ⟨e', he', hnode, hanswer⟩ := hv.answers e he
  obtain ⟨rfl, rfl⟩ := hanswer.unique hrequires
  exact ⟨e', he', hnode, rfl, rfl⟩

end Visit

namespace Analysis

variable {aim : Aim} {past : List Inquiry} {before : Tree} {s s' : Analysis}

/-- All requests of a unit are accounted for, in the session and in the unit. -/
structure Accounted (config : Config) (past : List Inquiry) (before : Tree) (s : Analysis) : Prop
    extends Visit.Sound config ⟨before, s.tree, s.requests, s.inquiries⟩ where
  numbers : ∃ files, s.loader = .counting files ∧ Import.Numbers (past ++ s.inquiries) files

namespace Accounted

theorem of_extends {config : Config} (h : Accounted config past before s)
    (htree : s.tree.Extends s'.tree)
    (hanswers : ∀ id, s'.tree.noted? (·.answer?) id = s.tree.noted? (·.answer?) id)
    (hledger : s'.ledger.2 = s.ledger.2) : Accounted config past before s' := by
  obtain ⟨graph, tree, log, late, loader, requests, inquiries, spare⟩ := s'
  cases hledger
  refine ⟨⟨h.requests, fun e he => ?_, fun id hid => (hanswers id).trans (h.others id hid)⟩,
    h.numbers⟩
  obtain ⟨e', he', hnode, hrequires⟩ := h.answers e he
  exact ⟨e', he', hnode, hrequires.of_extends htree (hanswers _)⟩

/-- A request is made. -/
theorem answered {id path : NodeId} {r : ImportRequest} {value : Value} {raw : String}
    (h : Accounted aim.env.config past before s) (hid : At id (.require path r.foreign) s)
    (hvalue : value.str? = some raw)
    (hpath : r.path =
      Import.resolve aim.env.config (UnixPath.mk s.tree.file).directory r.foreign raw) :
    Accounted aim.env.config past before (s.answered id r value) := by
  obtain ⟨files, hloader, hnumbers⟩ := h.numbers
  have hother : ∀ other, other ≠ id → (s.answered id r value).tree.noted? (·.answer?) other =
      s.tree.noted? (·.answer?) other := fun other hne => Tree.noted?_annotate_of_ne hne
  refine ⟨⟨?_, fun e he => ?_, fun other hnone => ?_⟩, ⟨Import.note files r, ?_, ?_⟩⟩
  · rw [Analysis.answered, List.map_append, List.foldl_append, ← h.requests]
    rfl
  · by_cases hne : e.node = id
    · obtain ⟨node, hnode, hkind⟩ := hid
      obtain ⟨node', hnode', hkind', -⟩ := (extends_answered s).node? hnode
      rw [hne]
      exact ⟨⟨id, r, (s.loader.register r).1⟩,
        List.mem_append_right _ (List.mem_singleton_self _), rfl,
        ⟨node', path, r.foreign, value, raw, hnode', hkind'.trans hkind,
          Tree.noted?_annotate_self hnode, hvalue, hpath⟩⟩
    · have hmem : e ∈ s.inquiries := (List.mem_append.mp he).resolve_right fun hlast =>
        hne (congrArg Inquiry.node (List.mem_singleton.mp hlast))
      obtain ⟨e', he', hnode, hrequires⟩ := h.answers e hmem
      exact ⟨e', List.mem_append_left _ he', hnode,
        hrequires.of_extends (extends_answered s) (hother _ hne)⟩
  · have hne : other ≠ id := fun heq =>
      hnone _ (List.mem_append_right _ (List.mem_singleton_self _)) heq.symm
    exact (hother other hne).trans (h.others other fun e he => hnone e (List.mem_append_left _ he))
  · rw [Analysis.answered, hloader]
    rfl
  · rw [Analysis.answered, hloader, ← List.append_assoc]
    exact hnumbers.register id r

theorem remark (h : Accounted aim.env.config past before s) (hstep : Remark aim s s') :
    Accounted aim.env.config past before s' := by
  cases hstep with
  | keep htree _ hanswers hledger => exact h.of_extends htree hanswers (congrArg Prod.snd hledger)
  | constant | defer =>
    refine h.of_extends ?_ (Tree.noted?_annotate_of_eq fun _ _ => rfl) rfl
    dsimp only
    exact .annotate _ _
  | require hid hvalue hpath => exact h.answered hid hvalue hpath

end Accounted

theorem Passed.accounted {env : Environment} {root declared resolved bound : Analysis}
    {unit : ScopeId} (h : Passed env root s unit declared resolved bound)
    (hroot : root.Startable env) (hstart : Accounted env.config past before root) :
    Accounted env.config past before s := by
  obtain ⟨hbefore, hafter⟩ := h.remarks hroot
  have hresolved := Remarks.induct hbefore (fun hstep hs => hs.remark hstep) hstart
  exact Remarks.induct hafter (fun hstep hs => hs.remark hstep)
    (hresolved.of_extends .refl (fun _ => rfl) rfl)

end Analysis

/-! ### All units -/

namespace Session

open Analysis

variable {config : Config} {reducer : Reducer} {visits : List Visit} {s s' : Session} {t t' : Tree}
  {r : UnitReport}

/-- What a unit asks for while it is analysed. -/
def inquiries (s : Session) (t : Tree) : List Inquiry :=
  match t.validate, (passes s.environment).run (s.opening t) with
  | .ok (), .ok _ a => a.inquiries
  | _, _ => []

/-- The units that a session has analysed since it began with no files. -/
inductive History (config : Config) (reducer : Reducer) : List Visit → Session → Prop where
  | start : History config reducer [] (startWith config reducer (.counting []))
  | unit {visits : List Visit} {s s' : Session} {t t' : Tree} {r : UnitReport} :
    History config reducer visits s → s.Admits t → s.analyze t = .ok (r, t', s') →
    History config reducer (visits ++ [⟨t, t', r.requests, s.inquiries t⟩]) s'

/-- One more unit. -/
theorem visit_of_analyze {files : List ImportRequest} {past : List Inquiry} (hs : s.Balanced)
    (hloader : s.loader = .counting files) (hpast : Import.Numbers past files)
    (hadmits : s.Admits t) (h : s.analyze t = .ok (r, t', s')) :
    s'.config = s.config ∧ Visit.Sound s.config ⟨t, t', r.requests, s.inquiries t⟩ ∧
      ∃ files, s'.loader = .counting files ∧ Import.Numbers (past ++ s.inquiries t) files := by
  rcases analyze_cases h with ⟨fault, ht, rfl, rfl, rfl⟩ | ⟨unit, a, ht, hrun, rfl, rfl, rfl⟩
  · have hnone : s.inquiries t' = [] := by rw [inquiries, ht]
    rw [hnone, List.append_nil]
    exact ⟨rfl, ⟨rfl, nofun, fun _ _ => rfl⟩, files, hloader, hpast⟩
  · have hsome : s.inquiries t = a.inquiries := by rw [inquiries, ht, hrun]
    have hopening := startable_opening hs ht hadmits
    obtain ⟨declared, resolved, bound, hpassed⟩ := exists_passed hopening hrun
    have hstart : Accounted s.environment.config past t (s.opening t) :=
      ⟨⟨rfl, nofun, fun _ _ => rfl⟩, files, hloader, (List.append_nil past).symm ▸ hpast⟩
    have haccounted := hpassed.accounted hopening hstart
    rw [hsome]
    exact ⟨rfl, haccounted.toSound, haccounted.numbers⟩

namespace History

theorem continues (h : History config reducer visits s) :
    Continues (startWith config reducer (.counting [])) s := by
  induction h with
  | start => exact .refl
  | unit _ hadmits hanalyze ih => exact .tail ih ⟨_, _, _, hadmits, hanalyze⟩

theorem sound (h : History config reducer visits s) :
    s.config = config ∧ (∀ v ∈ visits, v.Sound config) ∧
      ∃ files, s.loader = .counting files ∧
        Import.Numbers (visits.flatMap (·.inquiries)) files := by
  induction h with
  | start => exact ⟨rfl, nofun, [], rfl, .nil⟩
  | unit hbefore hadmits hanalyze ih =>
    obtain ⟨rfl, hvisits, files, hloader, hnumbers⟩ := ih
    obtain ⟨hconfig, hvisit, hfiles⟩ :=
      visit_of_analyze (balanced_of_continues hbefore.continues) hloader hnumbers hadmits hanalyze
    refine ⟨hconfig, fun v hv => ?_, ?_⟩
    · rcases List.mem_append.mp hv with hv | hv
      · exact hvisits v hv
      · exact List.mem_singleton.mp hv ▸ hvisit
    · rw [List.flatMap_append, List.flatMap_singleton]
      exact hfiles

/-- Files are numbered in the order in which they are first asked for: the numbers that requests are
given are the places of their files in that order, none is left out, and the numbers that nodes have
received are the same if and only if the files are. The report of a unit lists what the unit has
asked for, without what is already listed. Each node that has made a request has received the number
of one, and no other node is noted with a number. -/
theorem handles_identify_paths (h : History config reducer visits s) :
    let asked := visits.flatMap (·.inquiries)
    let files := Import.distinct (asked.map (·.request))
    (∀ e ∈ asked, (Import.keys files)[e.handle.number]? = some e.request.path.components) ∧
      (∀ i < files.length, ∃ e ∈ asked, e.handle.number = i) ∧
      (∀ v ∈ visits, ∀ v' ∈ visits, ∀ id id' handle handle' file file',
        v.Receives config id handle file → v'.Receives config id' handle' file' →
        (handle = handle' ↔ file.same file' = true)) ∧
      ∀ v ∈ visits, v.requests = Import.distinct (v.inquiries.map (·.request)) ∧
        (∀ e ∈ v.inquiries, ∃ e' ∈ v.inquiries,
          v.Receives config e.node e'.handle e'.request.path) ∧
        ∀ id, (∀ e ∈ v.inquiries, e.node ≠ id) →
          v.after.noted? (·.handle) id = v.before.noted? (·.handle) id := by
  obtain ⟨-, hvisits, files, -, hnumbers⟩ := h.sound
  dsimp only
  rw [← hnumbers.eq_distinct]
  refine ⟨hnumbers.place, fun _ => hnumbers.exists_handle, ?_, fun v hv => ⟨?_, ?_, ?_⟩⟩
  · intro v hv v' hv' id id' handle handle' file file' hreceives hreceives'
    obtain ⟨e, he, -, rfl, rfl⟩ := (hvisits v hv).exists_inquiry hreceives
    obtain ⟨e', he', -, rfl, rfl⟩ := (hvisits v' hv').exists_inquiry hreceives'
    exact hnumbers.handle_eq_iff (List.mem_flatMap.mpr ⟨v, hv, he⟩)
      (List.mem_flatMap.mpr ⟨v', hv', he'⟩)
  · rw [(hvisits v hv).requests, Import.foldl_note_nil]
  · intro e he
    obtain ⟨e', he', -, hanswer⟩ := (hvisits v hv).answers e he
    exact ⟨e', he', ⟨e, he, rfl⟩, hanswer⟩
  · intro id hid
    rw [Tree.noted?_handle, Tree.noted?_handle, (hvisits v hv).others id hid]

end History

/-- Three requests, the first and the last for the same file. -/
def threeRequests : Tree :=
  { file := "a.phs"
    nodes := #[{ kind := .literal (.str "lib/x") }, { kind := .require ⟨0⟩ false },
      { kind := .literal (.str "y") }, { kind := .require ⟨2⟩ false },
      { kind := .literal (.str "lib//x") }, { kind := .require ⟨4⟩ false },
      { kind := .unit [⟨1⟩, ⟨3⟩, ⟨5⟩] }]
    root := ⟨6⟩ }

/-- Two requests, the second for a file that another unit has asked for. -/
def twoRequests : Tree :=
  { file := "lib/b.phs"
    nodes := #[{ kind := .literal (.str "z") }, { kind := .require ⟨0⟩ false },
      { kind := .literal (.str "x") }, { kind := .require ⟨2⟩ false }, { kind := .unit [⟨1⟩, ⟨3⟩] }]
    root := ⟨4⟩ }

/-- The numbers of two units: the first asks for one file twice, the second for the same file. -/
theorem handles_identify_paths_twoRequests : ∃ visits s, History {} Reduce.node visits s ∧
    (visits.flatMap (·.inquiries)).map (·.handle.number) = [0, 1, 0, 2, 0] ∧
    ∀ v ∈ visits, ∀ v' ∈ visits, ∀ id id' handle handle' file file',
      v.Receives {} id handle file → v'.Receives {} id' handle' file' →
      (handle = handle' ↔ file.same file' = true) := by
  have hend : (start {}).yields threeRequests (fun _ _ s => s.yields twoRequests fun _ _ _ =>
      ((start {}).inquiries threeRequests ++ s.inquiries twoRequests).map (·.handle.number) =
        [0, 1, 0, 2, 0]) = true := by decide +kernel
  obtain ⟨r₁, t₁, s₁, hfirst, hrest⟩ := exists_of_yields hend
  obtain ⟨r₂, t₂, s₂, hsecond, hnumbers⟩ := exists_of_yields hrest
  have hs : History {} Reduce.node
      [⟨_, t₁, r₁.requests, (start {}).inquiries threeRequests⟩,
        ⟨_, t₂, r₂.requests, s₁.inquiries twoRequests⟩] s₂ :=
    .unit (.unit .start (admits_of_all (by decide)) hfirst) (admits_of_all (by decide)) hsecond
  exact ⟨_, s₂, hs, by simpa using hnumbers, hs.handles_identify_paths.2.2.1⟩

end Session

end Scoping
