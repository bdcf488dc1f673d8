import OperationTree.CommandLine.Report
import OperationTree.Proofs.Json.Keys
import OperationTree.Proofs.Session.Leaving
import OperationTree.Proofs.Text.Utf8

/-! What a run of the command line comes to.  It has its documents or it fails at once.  Then it
lists the operations or calls one of them, and shuts the tree down in each case.  Closing the
standard transports never fails, so that a run succeeds if and only if its list or its call does. -/

namespace OperationTree

namespace Document

/-- The file at a path has a text that stands for something. -/
def Holds {α : Type} (parse? : String → Option α) (files : FileReader) (path : String) (x : α) :
    Prop :=
  ∃ bytes text, files path = .ok bytes ∧ text.toUTF8 = bytes.toByteArray ∧ parse? text = some x

end Document

namespace CommandLine

/-! ### Arguments -/

/-- What the documents say that arguments name; without settings there are the default ones. -/
structure Reads (files : FileReader) (arguments : Arguments) (root : Json) (settings : Settings) :
    Prop where
  definition : Document.Holds Json.parse? files arguments.definition root
  config : match arguments.config with
    | none => settings = {}
    | some path => Document.Holds Settings.parse? files path settings

/-- The definition of a run, as it is compiled. -/
abbrev compiled (settings : Settings) (root : Json) : Compiled :=
  .ofDefinition .standard settings 0 root

/-- The session in which a run has its tree. -/
abbrev opened (outside : Outside) (settings : Settings) (root : Json) : Session :=
  openTree .standard outside settings root

section Opened

variable (outside : Outside) (settings : Settings) {root : Json}

theorem opened_eq_after (root : Json) : opened outside settings root =
    (Session.initial true outside).after [.addTracker, .addTree .standard settings 0 root] :=
  rfl

theorem opened_regular (h : root.HasDistinctKeys) :
    Session.Regular ([], opened outside settings root) := by
  rw [opened_eq_after]
  refine (Session.Regular.initial true outside).deeds
    (Session.after_deeds _ [] (Session.initial_sited true outside) ?_)
  exact List.forall_mem_cons.mpr ⟨trivial,
    List.forall_mem_cons.mpr ⟨⟨Catalog.standardWith_isProper {}, h⟩, nofun⟩⟩

theorem opened_tame (h : root.HasDistinctKeys) :
    (opened outside settings root).Tame (compiled settings root) where
  reachable := ⟨true, outside, _, opened_eq_after outside settings root⟩
  regular := opened_regular outside settings h
  hasScheduler := rfl
  depth := Nat.le_trans (Nat.le_succ _) (Nat.le_max_right _ _)
  gates := Compiled.standard_needsNoGate {} settings 0 root
  descends := Session.descends_of_no_calls rfl _

/-- The standard transports close at once, and none of them fails to. -/
theorem opened_closesAtOnce (root : Json) :
    (opened outside settings root).ClosesAtOnce 0 where
  placed := Nat.one_pos
  instances i hi := by
    have hbuilt := (Loaded.ofNames_isBuiltFrom .standard
      (Compiled.modules (Node.plan root))).transports
    have hmem := List.mem_map_of_mem (f := fun i : Instance => some i.transport) hi
    obtain ⟨key, -, hfind⟩ := List.mem_map.mp (hbuilt ▸ hmem)
    exact Catalog.forall_standardWith
      (P := fun transport => transport.closeFault = none ∧ transport.closesLater = false)
      ⟨rfl, rfl⟩ ⟨rfl, rfl⟩ ⟨rfl, rfl⟩ ⟨rfl, rfl⟩ _ _ hfind
  faults _ hsd := nomatch hsd
  done _ hc := nomatch hc

end Opened

/-- The session that is left when its tree has been shut down. -/
def left (session : Session) : Session := (session.awaitShutdown 0).2

/-- All instances of a tree have been closed, each once and in the order in which they were
loaded. -/
structure ClosesAll (c : Compiled) (closings : List Closing) : Prop where
  each : closings = c.loaded.instances.map (Session.closing 0 0)
  once : (closings.map Closing.key).Nodup
  done : ∀ closing ∈ closings, closing.isDone = true

/-- A session with the tree of a run, of which nothing has been shut down. -/
structure HasTree (session : Session) (c : Compiled) : Prop where
  attained : session.Attained
  handles : session.handles = []
  closes : session.ClosesAtOnce 0
  instances : session.instancesOf 0 = c.loaded.instances

namespace HasTree

variable {session : Session} {c : Compiled}

theorem shutdowns (h : HasTree session c) : session.shutdowns = [] :=
  List.map_eq_nil_iff.mp h.handles

theorem later (h : HasTree session c) {t : Session} (hsteps : Session.Steps session t)
    (hhandles : t.handles = session.handles) : HasTree t c where
  attained := h.attained.steps hsteps
  handles := hhandles.trans h.handles
  closes := h.closes.steps hsteps
  instances := (hsteps.instancesOf h.closes.placed).trans h.instances

/-- Where all calls come to an end, everything is closed. -/
theorem closesAll (h : HasTree session c) (htame : session.Tame c)
    (hkeys : (c.loaded.instances.map Instance.key).Nodup) :
    ClosesAll c (left session).closings := by
  have hclosings := (htame.awaitShutdown h.closes h.shutdowns).2
  rw [h.instances] at hclosings
  rw [left, hclosings]
  refine ⟨rfl, by rwa [List.map_map], fun closing hc => ?_⟩
  obtain ⟨i, hi, rfl⟩ := List.mem_map.mp hc
  rw [Session.closing, (h.closes.instances i (h.instances ▸ hi)).2]
  rfl

end HasTree

section Act

variable (outside : Outside) (settings : Settings) (root : Json)

theorem opened_hasTree (h : root.HasDistinctKeys) :
    HasTree (opened outside settings root) (compiled settings root) where
  attained := (opened_regular outside settings h).attained
  handles := rfl
  closes := opened_closesAtOnce outside settings root
  instances := rfl

/-- What a call of an operation of the tree comes to, and the session in which it does. -/
def called (o : Operation) (request : Request) : Option Outcome × Session :=
  let (future, session) := (opened outside settings root).invoke o request
  session.await future

theorem called_hasTree (h : root.HasDistinctKeys) {o : Operation}
    (ho : o ∈ (compiled settings root).root.operations) (request : Request) :
    HasTree (called outside settings root o request).2 (compiled settings root) := by
  have hopened := opened_hasTree outside settings root h
  have hsited := hopened.attained.sited
  have hplaced : o.site.tree < (opened outside settings root).trees.length := by
    rw [Compiled.site_tree ho]
    exact Nat.one_pos
  have hinvoke := Session.invoke_steps hsited request hplaced
  have hawait := Session.await_fosters (hinvoke.sited hsited)
    ((opened outside settings root).invoke o request).1
  exact hopened.later (hinvoke.steps.trans hawait.steps)
    ((Session.await_handles (hinvoke.sited hsited) _).trans hinvoke.lasting.handles)

/-- A call of an operation that never comes back ends, and so does everything that it starts. -/
theorem called_ends (h : root.HasDistinctKeys) {path : String} {o : Operation}
    (hat : (compiled settings root).root.operationAt? path = some o)
    (hnever : o.NeverReturns (compiled settings root).root) (request : Request) :
    (called outside settings root o request).1.isSome = true ∧
      (called outside settings root o request).2.Tame (compiled settings root) := by
  have hget : (opened outside settings root).compiled[0]? = some (compiled settings root) := rfl
  have hinvoked := (opened_tame outside settings h).invoke hget hat hnever request
  refine hinvoked.await fun call hcall => ?_
  have hinvokes := Session.invoke_invokes (opened outside settings root) o request
  exact ((hinvokes.mem_iff call).mp (List.mem_singleton.mpr hcall.symm)).2

/-- The operation that arguments name is called, with success. -/
def Calls (arguments : Arguments) (value : Json) : Prop :=
  ∃ path o, arguments.operation = some path ∧
    (compiled settings root).root.operationAt? path = some o ∧
    (called outside settings root o arguments.request).1 = some (.ok value)

/-- The ways in which a run ends that has its documents. -/
inductive Ran (arguments : Arguments) : Report → Prop
  | list (hlist : arguments.list = true) : Ran arguments
    { exitCode := 0
      output := String.join ((compiled settings root).paths.map fun path => path ++ "\n")
      closings := (left (opened outside settings root)).closings }
  | unknown {path : String} (hlist : arguments.list = false)
    (hpath : arguments.operation = some path)
    (hnone : (compiled settings root).root.operationAt? path = none) (failure : String) :
    Ran arguments
      { exitCode := 1
        failure := some failure
        closings := (left (opened outside settings root)).closings }
  | success {path : String} {o : Operation} {value : Json} (hlist : arguments.list = false)
    (hpath : arguments.operation = some path)
    (hat : (compiled settings root).root.operationAt? path = some o)
    (hok : (called outside settings root o arguments.request).1 = some (.ok value)) :
    Ran arguments
      { exitCode := 0
        output := value.pretty ++ "\n"
        closings := (left (called outside settings root o arguments.request).2).closings }
  | failure {path : String} {o : Operation} (hlist : arguments.list = false)
    (hpath : arguments.operation = some path)
    (hat : (compiled settings root).root.operationAt? path = some o)
    (hnot : ∀ value, (called outside settings root o arguments.request).1 ≠ some (.ok value))
    (failure : String) : Ran arguments
      { exitCode := 1
        failure := some failure
        closings := (left (called outside settings root o arguments.request).2).closings }

variable {outside settings root} {arguments : Arguments} {report : Report}

theorem calls_iff {path : String} {o : Operation} (hpath : arguments.operation = some path)
    (hat : (compiled settings root).root.operationAt? path = some o) {value : Json} :
    Calls outside settings root arguments value ↔
      (called outside settings root o arguments.request).1 = some (.ok value) := by
  refine ⟨?_, fun hok => ⟨path, o, hpath, hat, hok⟩⟩
  rintro ⟨path', o', hpath', hat', hok⟩
  obtain rfl := Option.some.inj (hpath.symm.trans hpath')
  obtain rfl := Option.some.inj (hat.symm.trans hat')
  exact hok

theorem not_calls {path : String} (hpath : arguments.operation = some path)
    (hnone : (compiled settings root).root.operationAt? path = none) (value : Json) :
    ¬ Calls outside settings root arguments value := by
  rintro ⟨path', o, hpath', hat, -⟩
  obtain rfl := Option.some.inj (hpath.symm.trans hpath')
  cases hnone.symm.trans hat

theorem Ran.exitCode (h : Ran outside settings root arguments report) :
    report.exitCode = 0 ↔
      arguments.list = true ∨ ∃ value, Calls outside settings root arguments value := by
  cases h with
  | list hlist => simp [hlist]
  | unknown hlist hpath hnone => simp [hlist, not_calls hpath hnone]
  | success _ hpath hat hok =>
    exact ⟨fun _ => .inr ⟨_, (calls_iff hpath hat).mpr hok⟩, fun _ => rfl⟩
  | failure hlist hpath hat hnot => simp [hlist, calls_iff hpath hat, hnot]

theorem Ran.fails (h : Ran outside settings root arguments report) (hne : report.exitCode ≠ 0) :
    report.exitCode = 1 ∧ report.output = "" := by
  cases h with
  | list | success => exact absurd rfl hne
  | unknown | failure => exact ⟨rfl, rfl⟩

theorem Ran.prints (h : Ran outside settings root arguments report) (hlist : arguments.list = false)
    {value : Json} (hcalls : Calls outside settings root arguments value) :
    report.output = value.pretty ++ "\n" := by
  cases h with
  | list h => cases hlist.symm.trans h
  | unknown _ hpath hnone => exact absurd hcalls (not_calls hpath hnone value)
  | success _ hpath hat hok =>
    have hcalled := (calls_iff hpath hat).mp hcalls
    obtain rfl := Except.ok.inj (Option.some.inj (hok.symm.trans hcalled))
    rfl
  | failure _ hpath hat hnot => exact absurd ((calls_iff hpath hat).mp hcalls) (hnot value)

theorem Ran.closes (h : Ran outside settings root arguments report)
    (hdistinct : root.HasDistinctKeys)
    (hnever : ∀ path o, arguments.list = false → arguments.operation = some path →
      (compiled settings root).root.operationAt? path = some o →
      o.NeverReturns (compiled settings root).root) :
    ClosesAll (compiled settings root) report.closings := by
  have hkeys := Compiled.ofDefinition_instanceKeys_nodup .standard settings 0 root
  have hopened := (opened_hasTree outside settings root hdistinct).closesAll
    (opened_tame outside settings hdistinct) hkeys
  have hcalled {path : String} {o : Operation} (hlist : arguments.list = false)
      (hpath : arguments.operation = some path)
      (hat : (compiled settings root).root.operationAt? path = some o) :
      ClosesAll (compiled settings root)
        (left (called outside settings root o arguments.request).2).closings :=
    (called_hasTree outside settings root hdistinct (Node.operationAt?_mem hat) _).closesAll
      (called_ends outside settings root hdistinct hat (hnever _ _ hlist hpath hat) _).2 hkeys
  cases h with
  | list | unknown =>
    dsimp only
    exact hopened
  | success hlist hpath hat | failure hlist hpath hat =>
    dsimp only
    exact hcalled hlist hpath hat

end Act

/-! ### Runs -/

end CommandLine
end OperationTree
