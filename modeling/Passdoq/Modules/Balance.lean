import Passdoq.Lib.Run
import Passdoq.Modules.Manager

/-!
# Handles and hooks are balanced

* `Ledger es log` : what the log of calls says of each opening, when `es` are the handles that are stored;
* `Sound p es` : the ledger, and libltdl tracks the handles of `es`; `sound_loadModule`, `sound_unloadModule` and
  `sound_unloadAll` keep it, beside the handles of other managers;
* `handles_balanced` : over every sequence of calls of one manager the openings and closings balance.
-/

namespace Passdoq.Modules

/-! ## The ledger of calls -/

/-- The calls for the library of opening `n`. -/
def about (n : Nat) (log : List Trace) : List Trace := log.filter fun t => t.opening = n

/-- A library that was opened and is closed: it was not kept, or it was stored and released. -/
def Finished (n : Nat) (l : List Trace) : Prop := Refusal n l ∨ ∃ h : ModuleHandle, h.opening = n ∧ l = loading h ++ unloading h

structure Ledger (es : List ModuleHandle) (log : List Trace) : Prop where
  distinct : (es.map ModuleHandle.opening).Nodup
  bound : ∀ t ∈ log, t.opening < openings log
  stored : ∀ h ∈ es, h.opening < openings log ∧ about h.opening log = loading h
  finished : ∀ n < openings log, (∀ h ∈ es, h.opening ≠ n) → Finished n (about n log)
  balance : openings log = closings log + es.length

section Ledger

variable {es es' : List ModuleHandle} {log l : List Trace} {n : Nat} {h : ModuleHandle}

theorem openings_append (log l : List Trace) : openings (log ++ l) = openings log + openings l := List.countP_append

theorem closings_append (log l : List Trace) : closings (log ++ l) = closings log + closings l := List.countP_append

theorem about_append (n : Nat) (log l : List Trace) : about n (log ++ l) = about n log ++ about n l := List.filter_append ..

theorem about_self (h : ∀ t ∈ l, t.opening = n) : about n l = l := List.filter_eq_self.mpr fun t ht => decide_eq_true (h t ht)

theorem about_other {k : Nat} (h : ∀ t ∈ l, t.opening = k) (hne : k ≠ n) : about n l = [] :=
  List.filter_eq_nil_iff.mpr fun t ht => by simp [h t ht, hne]

theorem opening_loading (h : ModuleHandle) : ∀ t ∈ loading h, t.opening = h.opening := by
  unfold loading
  cases h.module.init <;> simp [Trace.opening]

theorem opening_unloading (h : ModuleHandle) : ∀ t ∈ unloading h, t.opening = h.opening := by
  unfold unloading
  cases h.module.deinit <;> simp [Trace.opening]

theorem openings_loading (h : ModuleHandle) : openings (loading h) = 1 ∧ closings (loading h) = 0 := by
  unfold loading
  cases h.module.init <;> exact ⟨rfl, rfl⟩

theorem openings_unloading (h : ModuleHandle) : openings (unloading h) = 0 ∧ closings (unloading h) = 1 := by
  unfold unloading
  cases h.module.deinit <;> exact ⟨rfl, rfl⟩

theorem opening_refusal (h : Refusal n l) : (∀ t ∈ l, t.opening = n) ∧ openings l = 1 ∧ closings l = 1 := by
  rcases h with rfl | rfl
  · exact ⟨by simp [Trace.opening], rfl, rfl⟩
  · exact ⟨by simp [Trace.opening], rfl, rfl⟩

theorem ledger_nil : Ledger [] [] := ⟨List.nodup_nil, nofun, nofun, nofun, rfl⟩

theorem Ledger.perm (hl : Ledger es log) (hp : es.Perm es') : Ledger es' log where
  distinct := (hp.map ModuleHandle.opening).nodup_iff.mp hl.distinct
  bound := hl.bound
  stored h hh := hl.stored h (hp.mem_iff.mpr hh)
  finished n hn hnone := hl.finished n hn fun h hh => hnone h (hp.mem_iff.mp hh)
  balance := by rw [← hp.length_eq]; exact hl.balance

/-- Nothing is known of an opening that has not been. -/
theorem Ledger.about_next (hl : Ledger es log) : about (openings log) log = [] := by
  refine List.filter_eq_nil_iff.mpr fun t ht => ?_
  have := hl.bound t ht
  simp only [decide_eq_true_eq]
  omega

/-- More calls for one opening leave the others as they were. -/
theorem Ledger.extend (hl : Ledger es log) (hone : ∀ t ∈ l, t.opening = n) (hn : n < openings log + openings l) :
    (∀ t ∈ log ++ l, t.opening < openings (log ++ l)) ∧ ∀ k ≠ n, about k (log ++ l) = about k log := by
  constructor
  · intro t ht
    rw [openings_append]
    rcases List.mem_append.mp ht with ht | ht
    · have := hl.bound t ht
      omega
    · rw [hone t ht]
      exact hn
  · intro k hk
    rw [about_append, about_other hone (Ne.symm hk), List.append_nil]

/-- A library is opened and not kept. -/
theorem Ledger.refuse (hl : Ledger es log) (hr : Refusal (openings log) l) : Ledger es (log ++ l) := by
  obtain ⟨hone, hopen, hclose⟩ := opening_refusal hr
  obtain ⟨hbound, hother⟩ := hl.extend hone (by omega)
  refine ⟨hl.distinct, hbound, fun h hh => ?_, fun n hn hnone => ?_, ?_⟩
  · obtain ⟨hlt, habout⟩ := hl.stored h hh
    rw [openings_append, hother h.opening (by omega)]
    exact ⟨by omega, habout⟩
  · rw [openings_append, hopen] at hn
    by_cases hnew : n = openings log
    · rw [hnew, about_append, hl.about_next, about_self hone]
      exact .inl hr
    · rw [hother n hnew]
      exact hl.finished n (by omega) hnone
  · rw [openings_append, closings_append, hopen, hclose, hl.balance]
    omega

/-- A library is opened and stored. -/
theorem Ledger.store (hl : Ledger es log) (hn : h.opening = openings log) : Ledger (h :: es) (log ++ loading h) := by
  have hone := opening_loading h
  obtain ⟨hopen, hclose⟩ := openings_loading h
  obtain ⟨hbound, hother⟩ := hl.extend hone (by omega)
  have hnew : ∀ g ∈ es, g.opening ≠ h.opening := by
    intro g hg
    have := (hl.stored g hg).1
    omega
  refine ⟨?_, hbound, fun g hg => ?_, fun n hlt hnone => ?_, ?_⟩
  · rw [List.map_cons, List.nodup_cons]
    refine ⟨fun hmem => ?_, hl.distinct⟩
    obtain ⟨g, hg, hsame⟩ := List.mem_map.mp hmem
    exact hnew g hg hsame
  · rw [openings_append, hopen]
    rcases List.mem_cons.mp hg with rfl | hg
    · rw [about_append, hn, hl.about_next, ← hn, about_self hone]
      exact ⟨by omega, rfl⟩
    · obtain ⟨hlt, habout⟩ := hl.stored g hg
      rw [hother g.opening (hnew g hg)]
      exact ⟨by omega, habout⟩
  · rw [openings_append, hopen] at hlt
    have hne : h.opening ≠ n := hnone h List.mem_cons_self
    rw [hother n (Ne.symm hne)]
    exact hl.finished n (by omega) fun g hg => hnone g (List.mem_cons_of_mem h hg)
  · rw [openings_append, closings_append, hopen, hclose, hl.balance, List.length_cons]
    omega

/-- A stored library is released. -/
theorem Ledger.release (hl : Ledger (h :: es) log) : Ledger es (log ++ unloading h) := by
  have hone := opening_unloading h
  obtain ⟨hopen, hclose⟩ := openings_unloading h
  obtain ⟨hlt, habout⟩ := hl.stored h List.mem_cons_self
  obtain ⟨hbound, hother⟩ := hl.extend hone (by omega)
  have hdistinct := hl.distinct
  rw [List.map_cons, List.nodup_cons] at hdistinct
  have hne : ∀ g ∈ es, g.opening ≠ h.opening := by
    intro g hg hsame
    exact hdistinct.1 (List.mem_map.mpr ⟨g, hg, hsame⟩)
  refine ⟨hdistinct.2, hbound, fun g hg => ?_, fun n hn hnone => ?_, ?_⟩
  · obtain ⟨hglt, hgabout⟩ := hl.stored g (List.mem_cons_of_mem h hg)
    rw [openings_append, hother g.opening (hne g hg)]
    exact ⟨by omega, hgabout⟩
  · rw [openings_append, hopen] at hn
    by_cases hself : n = h.opening
    · rw [hself, about_append, habout, about_self hone]
      exact .inr ⟨h, rfl, rfl⟩
    · rw [hother n hself]
      refine hl.finished n (by omega) fun g hg => ?_
      rcases List.mem_cons.mp hg with rfl | hg
      · exact Ne.symm hself
      · exact hnone g hg
  · have hbalance := hl.balance
    rw [List.length_cons] at hbalance
    rw [openings_append, closings_append, hopen, hclose]
    omega

end Ledger

/-! ## What the calls of a manager keep -/

/-- The log is a ledger of the handles `es`, and libltdl tracks them. -/
structure Sound (p : Process) (es : List ModuleHandle) : Prop where
  ledger : Ledger es p.log
  tracks : p.ltdl.Tracks (es.map ModuleHandle.handle)

/-- Whether libltdl is initialized, for the managers and for itself, is as it was. -/
def SameInit (p p' : Process) : Prop :=
  p'.ltdlInitialized = p.ltdlInitialized ∧ p'.ltdl.initialized = p.ltdl.initialized

section Sound

variable {p p' : Process} {es es' others : List ModuleHandle} {h : ModuleHandle} {m m' : ModuleManager} {path name : Bytes}
  {io : Loading}

theorem SameInit.trans {p'' : Process} (h : SameInit p p') (h' : SameInit p' p'') : SameInit p p'' :=
  ⟨h'.1.trans h.1, h'.2.trans h.2⟩

theorem Sound.perm (hs : Sound p es) (hp : es.Perm es') : Sound p es' :=
  ⟨hs.ledger.perm hp, hs.tracks.perm (hp.map ModuleHandle.handle)⟩

theorem sound_release (hs : Sound p (h :: es)) :
    release h p = some (released h p) ∧ Sound (released h p) es ∧ SameInit p (released h p) := by
  obtain ⟨htracks, hinit⟩ := hs.tracks.lt_dlclose
  exact ⟨release_open (hs.tracks.isOpen List.mem_cons_self), ⟨hs.ledger.release, htracks⟩, rfl, hinit⟩

theorem sound_loaded {ltdl : Ltdl} {file : Option (Bytes × Bool)} (hs : Sound p es)
    (hopen : p.ltdl.lt_dlopen file = (some h.handle, ltdl)) (hn : h.opening = openings p.log) :
    Sound (loaded ltdl h p) (h :: es) ∧ SameInit p (loaded ltdl h p) := by
  obtain ⟨htracks, hinit⟩ := hs.tracks.lt_dlopen hopen
  exact ⟨⟨hs.ledger.store hn, htracks⟩, rfl, hinit⟩

/-- Every module is stored under the name in its descriptor. -/
def Named (m : ModuleManager) : Prop := ∀ name h, m.find? name = some h → h.module.name = name

theorem named_empty : Named ∅ := fun name h hf => by cases hf

theorem Named.insert (hm : Named m) (h : ModuleHandle) : Named (m.insert h.module.name h) := by
  intro name g hg
  rw [OrdMap.find?_insert] at hg
  split_ifs at hg with hname
  · obtain rfl := Option.some.inj hg
    exact hname
  · exact hm name g hg

theorem Named.erase (hm : Named m) (name : Bytes) : Named (m.erase name) := by
  intro name' g hg
  rw [OrdMap.find?_erase] at hg
  split_ifs at hg
  exact hm name' g hg

/-- `load_module` beside the handles of other managers. -/
theorem sound_loadModule (hs : Sound p (m.values ++ others)) : ∃ b m' p', loadModule path io m p = some (b, m', p') ∧
    Sound p' (m'.values ++ others) ∧ SameInit p p' ∧ (b = false → m' = m) ∧ (Named m → Named m') ∧
    (p.ltdlInitialized = false → m' = m) := by
  rcases loadModule_cases path io m p with hl | ⟨handle, ltdl, l, hopen, hr, hl⟩ | ⟨handle, ltdl, h, hopen, rfl, hn, hl⟩
  · exact ⟨_, _, _, hl, hs, ⟨rfl, rfl⟩, fun _ => rfl, id, fun _ => rfl⟩
  · -- the library is opened and closed
    obtain ⟨htracks, hinit⟩ := hs.tracks.lt_dlopen hopen
    obtain ⟨htracks, hinit'⟩ := htracks.lt_dlclose
    exact ⟨_, _, _, hl, ⟨hs.ledger.refuse hr, htracks⟩, ⟨rfl, hinit'.trans hinit⟩, fun _ => rfl, id, fun _ => rfl⟩
  · obtain ⟨hloaded, hinit⟩ := sound_loaded hs hopen hn
    have hflag : p.ltdlInitialized = false → ∀ {x}, loadModule path io m p = some x → x.1 = false := by
      intro hflag x hx
      unfold loadModule at hx
      rw [if_pos (by simp [hflag])] at hx
      rw [← Option.some.inj hx]
    rcases hl with ⟨hnone, hl⟩ | ⟨old, hold, hl⟩
    · refine ⟨_, _, _, hl, ?_, hinit, nofun, fun hm => hm.insert h, fun hf => absurd (hflag hf hl) nofun⟩
      exact hloaded.perm ((OrdMap.values_insert_of_find?_none hnone h).symm.append_right others)
    · -- the new module takes the place of one with its name, which is released
      have hperm : (h :: (m.values ++ others)).Perm (old :: (h :: (m.erase h.module.name).values ++ others)) :=
        (((OrdMap.values_erase_perm hold).append_right others).cons h).trans (List.Perm.swap _ _ _)
      obtain ⟨hrelease, hsound, hinit'⟩ := sound_release (hloaded.perm hperm)
      rw [hrelease] at hl
      refine ⟨_, _, _, hl, ?_, hinit.trans hinit', nofun, fun hm => hm.insert h, fun hf => absurd (hflag hf hl) nofun⟩
      exact hsound.perm ((OrdMap.values_insert_perm m h.module.name h).symm.append_right others)

theorem sound_unloadModule (hs : Sound p (m.values ++ others)) : ∃ b m' p', unloadModule name m p = some (b, m', p') ∧
    Sound p' (m'.values ++ others) ∧ SameInit p p' ∧ (Named m → Named m') ∧ (m.values = [] → m' = m) := by
  unfold unloadModule
  cases hfind : m.find? name with
  | none => exact ⟨_, _, _, rfl, hs, ⟨rfl, rfl⟩, id, fun _ => rfl⟩
  | some h =>
    obtain ⟨hrelease, hsound, hinit⟩ := sound_release (hs.perm ((OrdMap.values_erase_perm hfind).append_right others))
    dsimp only
    rw [hrelease]
    refine ⟨_, _, _, rfl, hsound, hinit, fun hm => hm.erase name, fun hnil => ?_⟩
    have hmem := OrdMap.mem_values.mpr ⟨name, hfind⟩
    rw [hnil] at hmem
    cases hmem

theorem sound_releases (hs : Sound p (es ++ others)) : ∃ p', es.foldlM (fun p h => release h p) p = some p' ∧
    Sound p' others ∧ SameInit p p' := by
  induction es generalizing p with
  | nil => exact ⟨p, rfl, hs, rfl, rfl⟩
  | cons h es ih =>
    obtain ⟨hrelease, hsound, hinit⟩ := sound_release hs
    obtain ⟨p', hfold, hsound', hinit'⟩ := ih hsound
    refine ⟨p', ?_, hsound', hinit.trans hinit'⟩
    rw [List.foldlM_cons, hrelease]
    exact hfold

theorem sound_unloadAll (hs : Sound p (m.values ++ others)) : ∃ p', unloadAll m p = some (∅, p') ∧
    Sound p' others ∧ SameInit p p' := by
  obtain ⟨p', hfold, hsound, hinit⟩ := sound_releases hs
  unfold unloadAll
  rw [hfold]
  exact ⟨p', rfl, hsound, hinit⟩

theorem sound_start : Sound .start [] := ⟨ledger_nil, Ltdl.tracks_start⟩

theorem sound_initLtdl (hs : Sound p []) (errors : Nat) : Sound (initLtdl errors p).2 [] := by
  unfold initLtdl
  split_ifs
  · exact hs
  · dsimp only
    split_ifs
    · exact ⟨hs.ledger, hs.tracks.lt_dlinit errors⟩
    · exact ⟨hs.ledger, hs.tracks.lt_dlinit errors⟩

end Sound

/-! ## One manager -/

/-- A manager in its process. -/
structure Managed where
  modules : ModuleManager
  process : Process

inductive Call
  | load (path : Bytes) (io : Loading)
  | unload (name : Bytes)
  | unloadAll

/-- A manager just constructed in a process that has no other; `errors` is what `lt_dlinit` reports. -/
def Managed.start (errors : Nat) : Managed := ⟨∅, (initLtdl errors .start).2⟩

/-- A call: what it returns, and what it leaves; none where it touches a library that is not in memory. -/
def Managed.call (s : Managed) : Call → Option (Bool × Managed)
  | .load path io => (loadModule path io s.modules s.process).map fun x => (x.1, ⟨x.2.1, x.2.2⟩)
  | .unload name => (unloadModule name s.modules s.process).map fun x => (x.1, ⟨x.2.1, x.2.2⟩)
  | .unloadAll => (Modules.unloadAll s.modules s.process).map fun x => (true, ⟨x.1, x.2⟩)

def Managed.step (s : Managed) (c : Call) : Option Managed := (s.call c).map Prod.snd

/-- The handles that are open are those in the map; the names are unique and those of the descriptors; the calls for each
opening are those of a library that is stored, and its hook did not fail, or of one that was closed, after its `deinit` if
it was stored. -/
structure Balanced (s : Managed) : Prop where
  handles : openings s.process.log = closings s.process.log + s.modules.size
  unique : (s.modules.toList.map Prod.fst).Nodup
  names : Named s.modules
  stored : ∀ name h, s.modules.find? name = some h → about h.opening s.process.log = loading h
  finished : ∀ n < openings s.process.log, (∀ name h, s.modules.find? name = some h → h.opening ≠ n) →
    Finished n (about n s.process.log)

theorem balanced_of_sound {s : Managed} (hs : Sound s.process s.modules.values) (hn : Named s.modules) : Balanced s where
  handles := by
    have hbalance := hs.ledger.balance
    rwa [OrdMap.values, List.length_map] at hbalance
  unique := by
    refine List.Pairwise.imp (fun hlt => ne_of_lt hlt) ?_
    exact List.pairwise_map.mpr s.modules.sorted
  names := hn
  stored name h hf := (hs.ledger.stored h (OrdMap.mem_values.mpr ⟨name, hf⟩)).2
  finished n hn hnone := hs.ledger.finished n hn fun h hh => by
    obtain ⟨name, hf⟩ := OrdMap.mem_values.mp hh
    exact hnone name h hf

/-- A call keeps the handles of one manager sound, and does not touch a library that is closed. -/
theorem managed_call {s : Managed} (hs : Sound s.process s.modules.values) (hn : Named s.modules) (c : Call) :
    ∃ b s', s.call c = some (b, s') ∧ Sound s'.process s'.modules.values ∧ Named s'.modules ∧
      ∀ path io, c = .load path io → b = false → s'.modules = s.modules := by
  have hs : Sound s.process (s.modules.values ++ []) := by rwa [List.append_nil]
  cases c with
  | load path io =>
    obtain ⟨b, m', p', hl, hsound, -, hkeep, hnamed, -⟩ := sound_loadModule hs
    rw [List.append_nil] at hsound
    exact ⟨b, ⟨m', p'⟩, by rw [Managed.call, hl]; rfl, hsound, hnamed hn, fun _ _ _ => hkeep⟩
  | unload name =>
    obtain ⟨b, m', p', hl, hsound, -, hnamed, -⟩ := sound_unloadModule hs
    rw [List.append_nil] at hsound
    exact ⟨b, ⟨m', p'⟩, by rw [Managed.call, hl]; rfl, hsound, hnamed hn, nofun⟩
  | unloadAll =>
    obtain ⟨p', hl, hsound, -⟩ := sound_unloadAll hs
    exact ⟨true, ⟨∅, p'⟩, by rw [Managed.call, hl]; rfl, hsound, named_empty, nofun⟩

/-- Every sequence of calls goes through and leaves the handles and hooks balanced, and so does every call after it, which,
when it is a load that returns false, leaves the map alone. -/
theorem handles_balanced (errors : Nat) (calls : List Call) : ∃ s, runs Managed.step (.start errors) calls = some s ∧
    Balanced s ∧ ∀ c, ∃ b s', s.call c = some (b, s') ∧ Balanced s' ∧
      ∀ path io, c = .load path io → b = false → s'.modules = s.modules := by
  have hrun : ∀ (calls : List Call) (s : Managed), Sound s.process s.modules.values → Named s.modules →
      ∃ s', runs Managed.step s calls = some s' ∧ Sound s'.process s'.modules.values ∧ Named s'.modules := by
    intro calls
    induction calls with
    | nil => exact fun s hs hn => ⟨s, rfl, hs, hn⟩
    | cons c calls ih =>
      intro s hs hn
      obtain ⟨b, s', hc, hs', hn', -⟩ := managed_call hs hn c
      obtain ⟨s'', hr, hs'', hn''⟩ := ih s' hs' hn'
      exact ⟨s'', runs_cons.mpr ⟨s', by rw [Managed.step, hc]; rfl, hr⟩, hs'', hn''⟩
  obtain ⟨s, hr, hs, hn⟩ := hrun calls (.start errors) (sound_initLtdl sound_start errors) named_empty
  refine ⟨s, hr, balanced_of_sound hs hn, fun c => ?_⟩
  obtain ⟨b, s', hc, hs', hn', hkeep⟩ := managed_call hs hn c
  exact ⟨b, s', hc, balanced_of_sound hs' hn', hkeep⟩

end Passdoq.Modules
