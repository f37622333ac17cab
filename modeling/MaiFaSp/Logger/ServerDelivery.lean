import MaiFaSp.Logger.ServerLogger

/-!
# What the server writes for a process

The requests of all processes come to the server in any order, but those of one process one after
another. A file that only one process registers holds what the process has logged since, and
nothing that others send changes this. The first logger of a process that goes takes the
registration of all with it.
-/

namespace MaiFaSp.Logger

section Acts

variable {can : List Char → Bool} {l l' : Logs} {pid q : ℤ} {sev sev' : Severity}
  {path path' message : List Char} {console : Bool} {e : Event} {es : List Event}

/-! ### The registry -/

theorem registered_register : (l.act can (.register pid sev path console)).registered q sev' =
    if q = pid ∧ sev' = sev then some (path, console) else l.registered q sev' := by
  simp only [Logs.registered, Logs.act]
  by_cases hq : q = pid
  · subst hq
    by_cases hsev : sev' = sev
    · simp [hsev]
    · cases l.streams q <;> simp [hsev]
  · simp [hq]

theorem registered_withdraw : (l.act can (.withdraw pid)).registered q sev =
    if q = pid then none else l.registered q sev := by
  simp only [Logs.registered, Logs.act]
  by_cases hq : q = pid <;> simp [hq]

theorem registered_write : (l.act can (.write pid sev message)).registered q sev' = l.registered q sev' := by
  simp only [Logs.registered, Logs.act]
  split <;> rfl

/-! ### One file -/

theorem files_register : (l.act can (.register pid sev path' console)).files path =
    if path = path' ∧ path ≠ [] ∧ can path then [] else l.files path := by
  simp only [Logs.act]
  by_cases hpath : path = path'
  · subst hpath
    by_cases hfile : path ≠ [] ∧ can path = true
    · simp [hfile]
    · simp [if_neg hfile]
  · have hother : ¬ (path = path' ∧ path ≠ [] ∧ can path = true) := fun h => hpath h.1
    rw [if_neg hother]
    split_ifs
    · exact Function.update_of_ne hpath ..
    · rfl

theorem files_write : (l.act can (.write pid sev message)).files path =
    if l.target can pid sev = some path then l.files path ++ (message ++ ['\n']) else l.files path := by
  simp only [Logs.act]
  cases l.target can pid sev with
  | none => simp
  | some path' =>
    by_cases hpath : path = path'
    · simp [hpath]
    · simp [hpath, Ne.symm hpath]

theorem target_eq_some : l.target can pid sev = some path ↔
    (∃ console, l.registered pid sev = some (path, console)) ∧ path ≠ [] ∧ can path = true := by
  unfold Logs.target
  cases l.registered pid sev with
  | none => simp
  | some x =>
    obtain ⟨path', console⟩ := x
    simp only [Option.map_some, Option.filter_eq_some_iff, Option.some.injEq, Prod.mk.injEq,
      exists_and_left, exists_eq', and_true, decide_eq_true_eq]

/-! ### One process and one file -/

/-- What the process has registered, and the file. -/
def Agree (pid : ℤ) (path : List Char) (l l' : Logs) : Prop :=
  (∀ sev, l.registered pid sev = l'.registered pid sev) ∧ l.files path = l'.files path

/-- Nobody else has registered the file. -/
def Spares (pid : ℤ) (path : List Char) (l : Logs) : Prop :=
  ∀ q, q ≠ pid → ∀ sev console, l.registered q sev ≠ some (path, console)

def Event.Names (path : List Char) : Event → Prop
  | .register _ _ path' _ => path' = path
  | .withdraw _ => False
  | .write _ _ _ => False

theorem Spares.act (hl : Spares pid path l) (h : e.pid ≠ pid → ¬ e.Names path) :
    Spares pid path (l.act can e) := by
  intro q hq sev console
  cases e with
  | register q' sev' path' console' =>
    rw [registered_register]
    split_ifs with hsame
    · intro heq
      simp only [Option.some.injEq, Prod.mk.injEq] at heq
      exact h (fun heq' => hq (hsame.1.trans heq')) heq.1
    · exact hl q hq sev console
  | withdraw q' =>
    rw [registered_withdraw]
    split_ifs
    · simp
    · exact hl q hq sev console
  | write q' sev' message =>
    rw [registered_write]
    exact hl q hq sev console

theorem registered_foreign (hpid : e.pid ≠ pid) :
    (l.act can e).registered pid sev = l.registered pid sev := by
  cases e with
  | register q sev' path' console =>
    rw [registered_register, if_neg fun hsame => hpid hsame.1.symm]
  | withdraw q => rw [registered_withdraw, if_neg fun hsame => hpid hsame.symm]
  | write q sev' message => rw [registered_write]

/-- What others ask for changes nothing. -/
theorem act_foreign (hl : Spares pid path l) (hpid : e.pid ≠ pid) (h : ¬ e.Names path) :
    Agree pid path (l.act can e) l := by
  refine ⟨fun sev => registered_foreign hpid, ?_⟩
  cases e with
  | register q sev path' console => rw [files_register, if_neg fun hsame => h hsame.1.symm]
  | withdraw q => rfl
  | write q sev message =>
    rw [files_write, if_neg fun htarget => ?_]
    obtain ⟨⟨console, hregistered⟩, -⟩ := target_eq_some.mp htarget
    exact hl q hpid sev console hregistered

/-- What the process itself asks for depends on nothing else. -/
theorem act_own (hl : Agree pid path l l') (hpid : e.pid = pid) :
    Agree pid path (l.act can e) (l'.act can e) := by
  obtain ⟨hregistered, hfiles⟩ := hl
  subst hpid
  cases e with
  | register q sev path' console =>
    refine ⟨fun sev' => ?_, ?_⟩
    · rw [registered_register, registered_register]
      exact if_congr Iff.rfl rfl (hregistered sev')
    · rw [files_register, files_register, hfiles]
  | withdraw q =>
    refine ⟨fun sev' => ?_, hfiles⟩
    rw [registered_withdraw, registered_withdraw]
    exact if_congr Iff.rfl rfl (hregistered sev')
  | write q sev message =>
    refine ⟨fun sev' => by rw [registered_write, registered_write]; exact hregistered sev', ?_⟩
    have htarget : l.target can q sev = l'.target can q sev := by
      unfold Logs.target
      rw [show l.registered q sev = l'.registered q sev from hregistered sev]
    rw [files_write, files_write, htarget, hfiles]

theorem run_cons : l.run can (e :: es) = (l.act can e).run can es := rfl

/-- A run and the run of the process's own requests. -/
theorem run_isolated (hspares : Spares pid path l) (hagree : Agree pid path l l')
    (h : ∀ e ∈ es, e.pid ≠ pid → ¬ e.Names path) :
    Agree pid path (l.run can es) (l'.run can (es.filter fun e => e.pid = pid)) := by
  induction es generalizing l l' with
  | nil => exact hagree
  | cons e es ih =>
    have hrest : ∀ e ∈ es, e.pid ≠ pid → ¬ e.Names path := fun e' he => h e' (List.mem_cons_of_mem e he)
    have hact : Spares pid path (l.act can e) := hspares.act (h e List.mem_cons_self)
    rw [run_cons]
    by_cases hpid : e.pid = pid
    · rw [List.filter_cons_of_pos (by simpa using hpid), run_cons]
      exact ih hact (act_own hagree hpid) hrest
    · rw [List.filter_cons_of_neg (by simpa using hpid)]
      have hforeign : Agree pid path (l.act can e) l :=
        act_foreign hspares hpid (h e List.mem_cons_self hpid)
      exact ih hact ⟨fun sev => (hforeign.1 sev).trans (hagree.1 sev), hforeign.2.trans hagree.2⟩ hrest

/-! ### The requests of one logger -/

variable {streams : List (Severity × List Char × Bool)} {entries : List Entry}

def registering (pid : ℤ) (stream : Severity × List Char × Bool) : Event :=
  .register pid stream.1 (cString stream.2.1) stream.2.2

def writing (pid : ℤ) (entry : Entry) : Event := .write pid entry.severity (cString (serverLine entry))

theorem lookup_of_not_mem (h : sev ∉ streams.map Prod.fst) : streams.lookup sev = none := by
  rw [List.lookup_eq_none_iff]
  intro x hx
  exact bne_iff_ne.mpr fun hsev => h (hsev ▸ List.mem_map_of_mem hx)

theorem registered_registering (hkeys : (streams.map Prod.fst).Nodup) :
    (l.run can (streams.map (registering pid))).registered pid sev =
      ((streams.lookup sev).map fun x => (cString x.1, x.2)).or (l.registered pid sev) := by
  induction streams generalizing l with
  | nil => simp [Logs.run]
  | cons x streams ih =>
    rw [List.map_cons, List.nodup_cons] at hkeys
    rw [List.map_cons, run_cons, ih hkeys.2, registering, registered_register, List.lookup_cons]
    by_cases hsev : sev = x.1
    · subst hsev
      simp [lookup_of_not_mem hkeys.1]
    · simp [hsev, beq_eq_false_iff_ne.mpr hsev]

theorem files_registering : (l.run can (streams.map (registering pid))).files path =
    if (∃ x ∈ streams, cString x.2.1 = path) ∧ path ≠ [] ∧ can path then [] else l.files path := by
  induction streams generalizing l with
  | nil => simp [Logs.run]
  | cons x streams ih =>
    rw [List.map_cons, run_cons, ih, registering, files_register]
    by_cases hfile : path ≠ [] ∧ can path = true
    · by_cases hx : cString x.2.1 = path
      · simp [hfile, hx]
      · simp only [List.exists_mem_cons_iff, hx, Ne.symm hx, false_and, false_or, if_false]
    · simp only [hfile, and_false, if_false]

theorem files_writing : (l.run can (entries.map (writing pid))).files path = l.files path ++
    (entries.filter fun entry => l.target can pid entry.severity = some path).flatMap
      fun entry => cString (serverLine entry) ++ ['\n'] := by
  induction entries generalizing l with
  | nil => simp [Logs.run]
  | cons entry entries ih =>
    have htarget : ∀ sev, (l.act can (writing pid entry)).target can pid sev = l.target can pid sev := by
      intro sev
      unfold Logs.target
      rw [writing, registered_write]
    rw [List.map_cons, run_cons, ih]
    simp only [htarget]
    rw [writing, files_write, List.filter_cons]
    by_cases hsame : l.target can pid entry.severity = some path
    · simp [hsame]
    · simp [hsame]

end Acts

section Requests

variable {can : List Char → Bool} {s s' : Server} {pid : ℤ} {path : List Char} {r : Request}
  {w : List Request} {streams : List (Severity × List Char × Bool)} {entries : List Entry}

theorem step_logs : (s.step can r).1.logs = r.event.elim s.logs (s.logs.act can) := handle_logs

theorem serve_logs : (runMachine (Server.step can) s w).1.logs =
    s.logs.run can (w.filterMap Request.event) := by
  induction w generalizing s with
  | nil => rfl
  | cons r w ih =>
    rw [runMachine_cons, ih, step_logs]
    cases hevent : r.event with
    | none => simp [hevent]
    | some e => simp [hevent, run_cons]

theorem events_of_process : (w.filterMap Request.event).filter (fun e => e.pid = pid) =
    (w.filter fun r => r.pid = some pid).filterMap Request.event := by
  induction w with
  | nil => rfl
  | cons r w ih =>
    cases hevent : r.event with
    | none =>
      by_cases hpid : r.pid = some pid
      · simp [hevent, hpid, ih]
      · simp [hevent, hpid, ih]
    | some e =>
      have hname := event_pid hevent
      by_cases hpid : e.pid = pid
      · simp [hevent, hname, hpid, ih]
      · simp [hevent, hname, hpid, ih]

theorem names_param {e : Event} (hevent : r.event = some e) (h : e.Names path) :
    r.route = .init ∧ r.param pathKey = some path := by
  unfold Request.event at hevent
  split_ifs at hevent
  split at hevent
  · next hroute =>
    refine ⟨hroute, ?_⟩
    split at hevent
    · next hpath _ =>
      split at hevent
      · cases hevent
        rw [hpath]
        exact congrArg some h
      · cases hevent
    · cases hevent
  · cases hpid : (r.param pidKey).bind stoi with
    | none => simp [hpid] at hevent
    | some pid =>
      simp only [hpid, Option.map_some, Option.some.injEq] at hevent
      rw [← hevent] at h
      exact h.elim
  · split at hevent
    · split at hevent
      · cases hevent
        exact h.elim
      · cases hevent
    · cases hevent

theorem streams_absent {b : ServerBuilder} {sev : Severity} {order : List Severity}
    (h : b.outputStreams sev = none) : b.streams (sev :: order) = b.streams order := by
  simp [ServerBuilder.streams, h]

theorem streams_present {b : ServerBuilder} {sev : Severity} {x : List Char × Bool}
    {order : List Severity} (h : b.outputStreams sev = some x) :
    b.streams (sev :: order) = (sev, x) :: b.streams order := by
  simp [ServerBuilder.streams, h]

theorem streams_keys (b : ServerBuilder) (order : List Severity) :
    ((b.streams order).map Prod.fst).Sublist order := by
  induction order with
  | nil => exact List.Sublist.refl []
  | cons sev order ih =>
    cases hsev : b.outputStreams sev with
    | none =>
      rw [streams_absent hsev]
      exact ih.cons sev
    | some x =>
      rw [streams_present hsev]
      exact ih.cons_cons sev

theorem lookup_streams (b : ServerBuilder) (order : List Severity) (sev : Severity) :
    (b.streams order).lookup sev = if sev ∈ order then b.outputStreams sev else none := by
  induction order with
  | nil => rfl
  | cons sev' order ih =>
    by_cases hsame : sev = sev'
    · subst hsame
      cases hsev : b.outputStreams sev with
      | none => simp [streams_absent hsev, ih, hsev]
      | some x => simp [streams_present hsev]
    · cases hsev : b.outputStreams sev' with
      | none => simp [streams_absent hsev, ih, hsame]
      | some x => simp [streams_present hsev, List.lookup_cons, ih, hsame, beq_eq_false_iff_ne.mpr hsame]

theorem mem_streams {order : List Severity} {b : ServerBuilder} {sev : Severity} {x : List Char × Bool}
    (hsev : sev ∈ order) (hx : b.outputStreams sev = some x) : (sev, x) ∈ b.streams order :=
  List.mem_filterMap.mpr ⟨sev, hsev, by rw [hx]; rfl⟩

/-- A process builds a logger and logs. Whatever other processes send in between, its file holds in
the end the lines of the severities that the logger has on this file, in order. -/
theorem server_delivers (b : ServerBuilder) {order : List Severity} (horder : order.Perm severities)
    (hlow : -2 ^ 31 ≤ pid) (hhigh : pid < 2 ^ 31)
    (hfresh : ∀ sev, s.registered pid sev = none)
    (hothers : ∀ q, q ≠ pid → ∀ sev console, s.registered q sev ≠ some (path, console))
    (hmem : ∃ sev x, b.outputStreams sev = some x ∧ cString x.1 = path)
    (hfile : path ≠ [] ∧ can path = true)
    (hown : w.filter (fun r => r.pid = some pid) =
      (b.build order :: entries.map Member.log).flatMap (Member.requests pid))
    (hforeign : ∀ r ∈ w, r.pid ≠ some pid → r.route = .init → r.param pathKey ≠ some path) :
    (runMachine (Server.step can) s w).1.files path =
      (entries.filter fun entry =>
        (b.outputStreams entry.severity).map (fun x => cString x.1) = some path).flatMap
          fun entry => cString (serverLine entry) ++ ['\n'] := by
  have hkeys := (horder.nodup_iff.mpr severities_nodup).sublist (streams_keys b order)
  have hall : ∀ sev, sev ∈ order := fun sev => horder.mem_iff.mpr (mem_severities sev)
  have hregisters : ∃ x ∈ b.streams order, cString x.2.1 = path := by
    obtain ⟨sev, x, hx, hpath⟩ := hmem
    exact ⟨(sev, x), mem_streams (hall sev) hx, hpath⟩
  have hconstruct : ((b.streams order).map (initRequest pid)).filterMap Request.event =
      (b.streams order).map (registering pid) := by
    rw [List.filterMap_map, ← List.filterMap_eq_map]
    exact List.filterMap_congr fun x _ => event_initRequest hlow hhigh x
  have hlog : (entries.flatMap fun entry => Member.requests pid (.log entry)).filterMap Request.event =
      entries.map (writing pid) := by
    have hmap : (entries.flatMap fun entry => Member.requests pid (.log entry)) =
        entries.map (logRequest pid) := List.map_eq_flatMap.symm
    rw [hmap, List.filterMap_map, ← List.filterMap_eq_map]
    exact List.filterMap_congr fun entry _ => event_logRequest hlow hhigh entry
  have hevents : (w.filterMap Request.event).filter (fun e => e.pid = pid) =
      (b.streams order).map (registering pid) ++ entries.map (writing pid) := by
    rw [events_of_process, hown, List.flatMap_cons, List.flatMap_map, List.filterMap_append]
    exact congrArg₂ _ hconstruct hlog
  have hspared : ∀ e ∈ w.filterMap Request.event, e.pid ≠ pid → ¬ e.Names path := by
    intro e he hpid hnames
    obtain ⟨r, hr, hevent⟩ := List.mem_filterMap.mp he
    obtain ⟨hroute, hparam⟩ := names_param hevent hnames
    refine hforeign r hr (fun hsame => hpid ?_) hroute hparam
    simpa [event_pid hevent] using hsame
  have hisolated : Agree pid path (s.logs.run can (w.filterMap Request.event))
      (s.logs.run can ((w.filterMap Request.event).filter fun e => e.pid = pid)) :=
    run_isolated hothers ⟨fun sev => rfl, rfl⟩ hspared
  change (runMachine (Server.step can) s w).1.logs.files path = _
  rw [serve_logs, hisolated.2, hevents, Logs.run, List.foldl_append]
  change ((s.logs.run can ((b.streams order).map (registering pid))).run can
    (entries.map (writing pid))).files path = _
  rw [files_writing, files_registering, if_pos ⟨hregisters, hfile⟩, List.nil_append]
  refine congrArg (List.flatMap _) (List.filter_congr fun entry _ => decide_eq_decide.mpr ?_)
  have hregistered : s.logs.registered pid entry.severity = none := hfresh entry.severity
  rw [target_eq_some, registered_registering hkeys, hregistered, Option.or_none, lookup_streams,
    if_pos (hall entry.severity)]
  cases b.outputStreams entry.severity with
  | none => simp
  | some x => simpa using fun _ => hfile

end Requests

/-- A server that nobody has talked to. -/
def newServer : Server := ⟨fun _ => none, fun _ => [], []⟩

def traceToFile : ServerBuilder := ServerBuilder.new.addFileStream ['a'] .trace

def hiEntry : Entry := ⟨['d'], ['t'], .trace, ['h', 'i']⟩

/-- What the process 7 sends, and in between the process 8. -/
def twoProcesses : List Request :=
  [initRequest 7 (.trace, ['a'], false), initRequest 8 (.trace, ['b'], true), logRequest 7 hiEntry,
    destroyRequest 8]

theorem server_delivers_line : (runMachine (Server.step fun _ => true) newServer twoProcesses).1.files ['a'] =
    "[d t][TRACE] hi\n".toList := by
  have hown : twoProcesses.filter (fun r => r.pid = some 7) =
      (traceToFile.build severities :: [hiEntry].map Member.log).flatMap (Member.requests 7) := by
    decide +kernel
  have hforeign : ∀ r ∈ twoProcesses, r.pid ≠ some 7 → r.route = .init → r.param pathKey ≠ some ['a'] := by
    decide +kernel
  have hothers : ∀ q, q ≠ 7 → ∀ sev console, newServer.registered q sev ≠ some (['a'], console) := by
    intro q hq sev console hregistered
    cases hregistered
  exact (server_delivers traceToFile (.refl severities) (by decide) (by decide) (fun _ => rfl) hothers
    ⟨.trace, (['a'], false), rfl, rfl⟩ (by decide) hown hforeign).trans (by decide +kernel)

section Requests

variable {can : List Char → Bool} {s s' : Server} {pid : ℤ} {path : List Char} {r : Request}
  {w : List Request} {entries : List Entry}

/-! ### After a logger of the process is gone -/

/-- All files, and what the others have registered. -/
def Same (pid : ℤ) (l l' : Logs) : Prop :=
  (∀ q, q ≠ pid → ∀ sev, l.registered q sev = l'.registered q sev) ∧ l.files = l'.files

theorem Same.act_foreign {l l' : Logs} {e : Event} (h : Same pid l l') (hpid : e.pid ≠ pid) :
    Same pid (l.act can e) (l'.act can e) := by
  refine ⟨fun q hq sev => ?_, funext fun path => ?_⟩
  · cases e with
    | register q' sev' path console => rw [registered_register, registered_register, h.1 q hq]
    | withdraw q' => rw [registered_withdraw, registered_withdraw, h.1 q hq]
    | write q' sev' message => rw [registered_write, registered_write, h.1 q hq]
  · cases e with
    | register q' sev' path' console => rw [files_register, files_register, h.2]
    | withdraw q' => exact congrFun h.2 path
    | write q' sev' message =>
      have htarget : l.target can q' sev' = l'.target can q' sev' := by
        unfold Logs.target
        rw [h.1 q' hpid]
      rw [files_write, files_write, htarget, h.2]

theorem Same.withdraw {l l' : Logs} (h : Same pid l l') : Same pid (l.act can (.withdraw pid)) l' := by
  refine ⟨fun q hq sev => ?_, h.2⟩
  rw [registered_withdraw, if_neg hq]
  exact h.1 q hq sev

theorem step_foreign (can : List Char → Bool) (hpid : r.pid ≠ some pid) (hsame : Same pid s.logs s'.logs) :
    Same pid (s.step can r).1.logs (s'.step can r).1.logs ∧
      ∀ sev, (s.step can r).1.registered pid sev = s.registered pid sev := by
  have hregistered : ∀ sev, (s.step can r).1.registered pid sev = (s.step can r).1.logs.registered pid sev :=
    fun sev => rfl
  simp only [hregistered]
  rw [step_logs, step_logs]
  cases hevent : r.event with
  | none => exact ⟨hsame, fun sev => rfl⟩
  | some e =>
    have hforeign : e.pid ≠ pid := fun hown => hpid (by rw [event_pid hevent, hown])
    exact ⟨hsame.act_foreign hforeign, fun sev => registered_foreign hforeign⟩

theorem serve_unregistered (can : List Char → Bool) (hlow : -2 ^ 31 ≤ pid) (hhigh : pid < 2 ^ 31)
    (hnone : ∀ sev, s.registered pid sev = none) (hsame : Same pid s.logs s'.logs)
    (hown : ∀ r ∈ w, r.pid = some pid → ∃ entry, r = logRequest pid entry) :
    Same pid (runMachine (Server.step can) s w).1.logs
        (runMachine (Server.step can) s' (w.filter fun r => r.pid ≠ some pid)).1.logs ∧
      ∀ x ∈ (runMachine (Server.step can) s w).2, x.1.pid = some pid → x.2 = .noContent := by
  induction w generalizing s s' with
  | nil => exact ⟨hsame, by simp [runMachine]⟩
  | cons r w ih =>
    have hrest : ∀ r ∈ w, r.pid = some pid → ∃ entry, r = logRequest pid entry :=
      fun r' hr => hown r' (List.mem_cons_of_mem r hr)
    rw [runMachine_cons]
    by_cases hpid : r.pid = some pid
    · obtain ⟨entry, rfl⟩ := hown r List.mem_cons_self hpid
      obtain ⟨hlogs, hstatus⟩ : (s.handle can (logRequest pid entry)).1.logs = s.logs ∧
        (s.handle can (logRequest pid entry)).2 = .noContent := handle_unregistered hlow hhigh hnone entry
      have hstep : (s.step can (logRequest pid entry)).1.logs = s.logs := hlogs
      have hnone' : ∀ sev, (s.step can (logRequest pid entry)).1.logs.registered pid sev = none := by
        rw [hstep]
        exact hnone
      obtain ⟨hrun, hanswers⟩ := ih hnone' (hstep ▸ hsame) hrest
      rw [List.filter_cons_of_neg (by simpa using hpid)]
      refine ⟨hrun, List.forall_mem_cons.mpr ⟨fun _ => hstatus, hanswers⟩⟩
    · obtain ⟨hstep, hkept⟩ := step_foreign can hpid hsame
      obtain ⟨hrun, hanswers⟩ := ih (fun sev => (hkept sev).trans (hnone sev)) hstep hrest
      rw [List.filter_cons_of_pos (by simpa using hpid), runMachine_cons]
      exact ⟨hrun, List.forall_mem_cons.mpr ⟨fun hown => absurd hown hpid, hanswers⟩⟩

theorem serve_withdrawn (can : List Char → Bool) (hlow : -2 ^ 31 ≤ pid) (hhigh : pid < 2 ^ 31) (hsame : Same pid s.logs s'.logs)
    (hown : w.filter (fun r => r.pid = some pid) = destroyRequest pid :: entries.map (logRequest pid)) :
    Same pid (runMachine (Server.step can) s w).1.logs
        (runMachine (Server.step can) s' (w.filter fun r => r.pid ≠ some pid)).1.logs ∧
      ∀ x ∈ (runMachine (Server.step can) s w).2, x.1.pid = some pid → x.2 = .noContent := by
  induction w generalizing s s' with
  | nil => simp at hown
  | cons r w ih =>
    rw [runMachine_cons]
    by_cases hpid : r.pid = some pid
    · rw [List.filter_cons_of_pos (by simpa using hpid), List.cons.injEq] at hown
      obtain ⟨rfl, hlater⟩ := hown
      obtain ⟨hlogs, hstatus⟩ : (s.handle can (destroyRequest pid)).1.logs = s.logs.act can (.withdraw pid) ∧
        (s.handle can (destroyRequest pid)).2 = .noContent := handle_destroyRequest hlow hhigh
      have hstep : (s.step can (destroyRequest pid)).1.logs = s.logs.act can (.withdraw pid) := hlogs
      have hnone : ∀ sev, (s.step can (destroyRequest pid)).1.logs.registered pid sev = none := by
        intro sev
        rw [hstep, registered_withdraw, if_pos rfl]
      have hlogged : ∀ r ∈ w, r.pid = some pid → ∃ entry, r = logRequest pid entry := by
        intro r hr hrpid
        have hmem : r ∈ entries.map (logRequest pid) :=
          hlater ▸ List.mem_filter.mpr ⟨hr, by simpa using hrpid⟩
        obtain ⟨entry, -, hentry⟩ := List.mem_map.mp hmem
        exact ⟨entry, hentry.symm⟩
      obtain ⟨hrun, hanswers⟩ := serve_unregistered can hlow hhigh hnone (hstep ▸ hsame.withdraw) hlogged
      rw [List.filter_cons_of_neg (by simpa using hpid)]
      exact ⟨hrun, List.forall_mem_cons.mpr ⟨fun _ => hstatus, hanswers⟩⟩
    · rw [List.filter_cons_of_neg (by simpa using hpid)] at hown
      obtain ⟨hstep, -⟩ := step_foreign can hpid hsame
      obtain ⟨hrun, hanswers⟩ := ih hstep hown
      rw [List.filter_cons_of_pos (by simpa using hpid), runMachine_cons]
      exact ⟨hrun, List.forall_mem_cons.mpr ⟨fun hown => absurd hown hpid, hanswers⟩⟩

end Requests

/-- The process 7 has a logger on the file `a`, and loses it before it logs. -/
def forgotten : List Request := [destroyRequest 7, logRequest 7 hiEntry]

def oneLogger : Server :=
  (runMachine (Server.step fun _ => true) newServer [initRequest 7 (.trace, ['a'], false)]).1

end MaiFaSp.Logger
