import Passdoq.Index.Manager

/-!
# The index mirrors the entries

* `IndexOp`, `IndexManager.exec`, `IndexManager.step` : one call of an operation of the manager;
* `Index.Mirrors` : the index has one document for each entry of a finite map (`IndexManager.step_mirrors`);
* `index_mirrors` : what the index has after a run.
-/

namespace Passdoq
open IndexManager

/-- A call of a public operation of the manager. -/
inductive IndexOp
  | create
  | open
  | close
  | clear
  | indexEntry (entry : Entry)
  | updateEntry (entry : Entry)
  | removeEntry (id : Bytes)
  | rebuildIndex (entries : List Entry)

variable {X : Xapian} {e : IndexEnv} {s s' : Index X} {op : IndexOp} {m : OrdMap Bytes Entry}

/-- One call of `op`; `close` returns nothing and always succeeds. -/
def IndexManager.exec (e : IndexEnv) : IndexOp → IndexAct X Bool
  | .create => create e
  | .open => IndexManager.open e
  | .close => (fun _ => true) <$> close e
  | .clear => clear e
  | .indexEntry entry => indexEntry e entry
  | .updateEntry entry => updateEntry e entry
  | .removeEntry id => removeEntry e id
  | .rebuildIndex entries => rebuildIndex e entries

/-- The state after a call that returned true. -/
def IndexManager.step (s : Index X) (ev : IndexEnv × IndexOp) : Option (Index X) :=
  match exec ev.1 ev.2 s with
  | (.ok true, s') => some s'
  | _ => none

/-- The entries that an index should have after a call, each under its id. -/
def IndexOp.apply (m : OrdMap Bytes Entry) : IndexOp → OrdMap Bytes Entry
  | .clear => ∅
  | .indexEntry entry => m.insert entry.id entry
  | .updateEntry entry => m.insert entry.id entry
  | .removeEntry id => m.erase id
  | .rebuildIndex entries => OrdMap.ofList (entries.map fun entry => (entry.id, entry))
  | _ => m

/-- No id is twice in a list to rebuild the index from. -/
def IndexOp.Distinct : IndexOp → Prop
  | .rebuildIndex entries => (entries.map Entry.id).Nodup
  | _ => True

/-- `index_entry` is called only for an id that no document of the index carries. -/
def IndexManager.Unindexed (s : Index X) (ev : IndexEnv × IndexOp) : Prop :=
  match ev.2 with
  | .indexEntry entry => ∀ db ∈ s.writer, ∀ doc ∈ X.docs db, ¬ X.carries doc (getDocId entry.id)
  | _ => True

/-- The index has one document for each entry of the map, and all of it is on the disk. -/
structure Index.Mirrors (s : Index X) (m : OrdMap Bytes Entry) : Prop where
  docs : (X.docs s.stored).Perm (m.toList.map fun p => entryToDocument p.2)
  settled : s.Settled
  keyed : Keyed m

/-- Only the document of an entry carries its id term. -/
theorem carries_docId (hX : X.Lawful) (entry : Entry) (id : Bytes) :
    X.carries (entryToDocument entry) (getDocId id) ↔ entry.id = id := by
  rw [carries_entryToDocument]
  constructor
  · intro h
    rcases h with h | ⟨tag, -, h⟩ | ⟨text, -, h⟩
    · exact (List.append_cancel_left h).symm
    · exact absurd (List.head_eq_of_cons_eq h) (by decide)
    · have hplain := hX.textTerm_plain h 81 List.mem_cons_self
      exact absurd rfl hplain.2
  · intro h
    exact .inl (by rw [h])

theorem Index.Mirrors.filter (hX : X.Lawful) (h : s.Mirrors m) (id : Bytes) :
    ((X.docs s.stored).filter fun doc => ¬ X.carries doc (getDocId id)).Perm
      ((m.erase id).toList.map fun p => entryToDocument p.2) := by
  have hkept : (m.toList.map fun p => entryToDocument p.2).filter (fun doc => ¬ X.carries doc (getDocId id)) =
      (m.erase id).toList.map fun p => entryToDocument p.2 := by
    rw [List.filter_map, OrdMap.erase]
    congr 1
    apply List.filter_congr
    intro p hp
    have hkey : p.2.id = p.1 := h.keyed p.1 p.2 ((OrdMap.mem_iff_find? m p.1 p.2).mp hp)
    have hcarries : X.carries (entryToDocument p.2) (getDocId id) = decide (p.1 = id) := by
      rw [Bool.eq_iff_iff, carries_docId hX, hkey, decide_eq_true_iff]
    simp [hcarries]
  exact hkept ▸ h.docs.filter _

theorem Index.Mirrors.insert (h : s.Mirrors m) {entry : Entry} {db : X.Db}
    (hdb : (X.docs db).Perm (entryToDocument entry :: (m.erase entry.id).toList.map fun p => entryToDocument p.2)) :
    (s.settle db).Mirrors (m.insert entry.id entry) where
  docs := hdb.trans ((m.toList_insert_perm entry.id entry).map fun p : Bytes × Entry => entryToDocument p.2).symm
  settled := fun _ hw => congrArg Disk.holds (Option.some.inj hw)
  keyed := h.keyed.insert entry

/-- The same database open or not. -/
theorem Index.Mirrors.reopen (h : s.Mirrors m) : (s.settle s.stored).Mirrors m :=
  ⟨h.docs, fun _ hw => congrArg Disk.holds (Option.some.inj hw), h.keyed⟩

theorem Index.Mirrors.writer (h : s.Mirrors m) {db : X.Db} (hw : s.writer = some db) : s.stored = db :=
  Index.stored_of_holds (h.settled db hw)

theorem rebuilt_mirrors (hX : X.Lawful) {entries : List Entry} (hd : (entries.map Entry.id).Nodup) :
    (s.settle (addAll X X.empty entries)).Mirrors (OrdMap.ofList (entries.map fun entry => (entry.id, entry))) where
  docs := by
    have hids : ((entries.map fun entry => (entry.id, entry)).map Prod.fst).Nodup := by
      rw [List.map_map]
      exact hd
    have hpairs := (OrdMap.toList_ofList_perm hids).map fun p => entryToDocument p.2
    rw [List.map_map] at hpairs
    have hadded := addAll_docs hX X.empty entries
    rw [hX.docs_empty, List.nil_append] at hadded
    exact hadded.trans hpairs.symm
  settled := fun _ hw => congrArg Disk.holds (Option.some.inj hw)
  keyed := keyed_empty.insertMany entries

/-- A call that returns true keeps the index with one document for each entry. -/
theorem IndexManager.step_mirrors (hX : X.Lawful) {ev : IndexEnv × IndexOp} (hm : s.Mirrors m) (hd : ev.2.Distinct)
    (hu : Unindexed s ev) (h : IndexManager.step s ev = some s') : s'.Mirrors (ev.2.apply m) := by
  obtain ⟨e, op⟩ := ev
  have hexec : IndexManager.exec e op s = (.ok true, s') := by
    unfold IndexManager.step at h
    split at h
    · next t ht =>
      rw [ht, Option.some.inj h]
    · cases h
  cases op with
  | create =>
    rw [create_true hexec]
    exact hm.reopen
  | «open» =>
    rw [open_true hexec]
    exact hm.reopen
  | close =>
    obtain ⟨_, hclose, -⟩ := Eff.map_eq_ok.mp hexec
    rw [close_ok hclose hm.settled]
    exact ⟨hm.docs, (fun db hw => by cases hw), hm.keyed⟩
  | clear =>
    rw [clear_true hexec]
    have hnone : (([] : List Entry).map Entry.id).Nodup := List.nodup_nil
    exact rebuilt_mirrors hX hnone
  | indexEntry entry =>
    obtain ⟨db, hw, rfl⟩ := changeEntry_true hexec
    have hnone : ((X.docs db).filter fun doc => ¬ X.carries doc (getDocId entry.id)) = X.docs db := by
      apply List.filter_eq_self.mpr
      exact fun doc hdoc => by simpa using hu db hw doc hdoc
    have hrest := hm.filter hX entry.id
    rw [hm.writer hw, hnone] at hrest
    exact hm.insert ((hX.docs_add db _).trans (hrest.cons _))
  | updateEntry entry =>
    obtain ⟨db, hw, rfl⟩ := changeEntry_true hexec
    have hrest := hm.filter hX entry.id
    rw [hm.writer hw] at hrest
    exact hm.insert ((hX.docs_replace db _ _).trans (hrest.cons _))
  | removeEntry id =>
    obtain ⟨db, hw, rfl⟩ := changeEntry_true hexec
    have hrest := hm.filter hX id
    rw [hm.writer hw] at hrest
    exact ⟨(hX.docs_delete db _).trans hrest, fun _ hw => congrArg Disk.holds (Option.some.inj hw), hm.keyed.erase id⟩
  | rebuildIndex entries =>
    rw [rebuildIndex_true hexec]
    exact rebuilt_mirrors hX hd

/-- The entries that an index should have after a run that found those of `m`. -/
def mirrored (m : OrdMap Bytes Entry) (evs : List (IndexEnv × IndexOp)) : OrdMap Bytes Entry :=
  evs.foldl (fun m ev => ev.2.apply m) m

theorem run_mirrors (hX : X.Lawful) {evs : List (IndexEnv × IndexOp)} (hm : s.Mirrors m)
    (hd : ∀ ev ∈ evs, ev.2.Distinct) (hu : Along IndexManager.step Unindexed s evs)
    (hr : runs IndexManager.step s evs = some s') : s'.Mirrors (mirrored m evs) := by
  induction evs generalizing s m with
  | nil =>
    cases hr
    exact hm
  | cons ev evs ih =>
    obtain ⟨t, ht, hr⟩ := runs_cons.mp hr
    have hstep := step_mirrors hX hm (hd ev List.mem_cons_self) hu.1 ht
    exact ih hstep (fun ev hev => hd ev (List.mem_cons_of_mem _ hev)) (hu.2 t ht) hr

/-- The documents of one id. -/
theorem Index.Mirrors.ofId (h : s.Mirrors m) (id : Bytes) :
    (X.docs s.stored).filter (fun doc => doc.data = id) = ((m.find? id).map entryToDocument).toList := by
  have hkept : (m.toList.map fun p => entryToDocument p.2).filter (fun doc => doc.data = id) =
      ((m.find? id).map entryToDocument).toList := by
    have hkeys : m.toList.filter (fun p => p.2.id = id) = ((m.find? id).map fun entry => (id, entry)).toList := by
      rw [← OrdMap.filter_key]
      apply List.filter_congr
      intro p hp
      have hkey : p.2.id = p.1 := h.keyed p.1 p.2 ((OrdMap.mem_iff_find? m p.1 p.2).mp hp)
      simp [hkey]
    rw [List.filter_map]
    change (m.toList.filter fun p => p.2.id = id).map _ = _
    rw [hkeys]
    cases m.find? id <;> rfl
  have hperm := h.docs.filter fun doc => doc.data = id
  rw [hkept] at hperm
  cases hf : m.find? id with
  | none =>
    rw [hf] at hperm
    exact hperm.eq_nil
  | some entry =>
    rw [hf] at hperm
    exact hperm.eq_singleton

/-- After calls that all returned true, each id has at most one document: the one of the entry last indexed under it,
unless it was removed since. -/
theorem index_mirrors (hX : X.Lawful) {evs : List (IndexEnv × IndexOp)} (hm : s.Mirrors m)
    (hd : ∀ ev ∈ evs, ev.2.Distinct) (hu : Along IndexManager.step Unindexed s evs)
    (hr : runs IndexManager.step s evs = some s') (id : Bytes) :
    (X.docs s'.stored).filter (fun doc => doc.data = id) = (((mirrored m evs).find? id).map entryToDocument).toList ∧
      s'.Settled :=
  have hrun := run_mirrors hX hm hd hu hr
  ⟨hrun.ofId id, hrun.settled⟩

theorem mirrors_fresh (hX : X.Lawful) : (Index.fresh X).Mirrors ∅ where
  docs := List.Perm.of_eq hX.docs_empty
  settled := fun _ hw => by cases hw
  keyed := keyed_empty

instance IndexOp.decidableDistinct : (op : IndexOp) → Decidable op.Distinct
  | .rebuildIndex entries => inferInstanceAs (Decidable (entries.map Entry.id).Nodup)
  | .create | .open | .close | .clear | .indexEntry _ | .updateEntry _ | .removeEntry _ => isTrue trivial

instance IndexManager.decidableUnindexed (s : Index X) : (ev : IndexEnv × IndexOp) → Decidable (Unindexed s ev)
  | (_, .indexEntry entry) =>
    inferInstanceAs (Decidable (∀ db ∈ s.writer, ∀ doc ∈ X.docs db, ¬ X.carries doc (getDocId entry.id)))
  | (_, .create) | (_, .open) | (_, .close) | (_, .clear) | (_, .updateEntry _) | (_, .removeEntry _)
  | (_, .rebuildIndex _) => isTrue trivial

/-- Every operation once, and an entry indexed again after it was removed. -/
def indexRun : List (IndexEnv × IndexOp) :=
  [.open, .indexEntry githubEntry, .updateEntry { githubEntry with name := ascii "GitHub" }, .close, .open, .indexEntry gmailEntry,
    .removeEntry githubEntry.id, .indexEntry githubEntry, .rebuildIndex [gmailEntry, githubEntry], .updateEntry gmailEntry].map
      fun op => (IndexEnv.calm, op)

theorem index_mirrors_sample : ∃ s', runs IndexManager.step (Index.fresh toyXapian) indexRun = some s' ∧
    (toyXapian.docs s'.stored).filter (fun doc => doc.data = ascii "entry-1") = [entryToDocument githubEntry] := by
  have hcheck : (runs IndexManager.step (Index.fresh toyXapian) indexRun).any fun _ =>
      decide ((∀ ev ∈ indexRun, ev.2.Distinct) ∧
        Along IndexManager.step Unindexed (Index.fresh toyXapian) indexRun ∧
        (mirrored ∅ indexRun).find? (ascii "entry-1") = some githubEntry) := by decide +kernel
  obtain ⟨s', hrun, h⟩ := (Option.any_eq_true _ _).mp hcheck
  obtain ⟨hd, hu, hfound⟩ := of_decide_eq_true h
  have hdocs := index_mirrors toyXapian_lawful (mirrors_fresh toyXapian_lawful) hd hu hrun (ascii "entry-1")
  rw [hfound] at hdocs
  exact ⟨s', hrun, hdocs.1⟩

/-- An entry indexed twice has two documents. -/
theorem index_mirrors_twice : ∃ s', runs IndexManager.step (Index.fresh toyXapian)
      ([.open, .indexEntry githubEntry, .indexEntry githubEntry].map fun op => (IndexEnv.calm, op)) = some s' ∧
    ¬ ((toyXapian.docs s'.stored).filter fun doc => doc.data = ascii "entry-1").length ≤ 1 := by
  have hcheck : (runs IndexManager.step (Index.fresh toyXapian)
      ([.open, .indexEntry githubEntry, .indexEntry githubEntry].map fun op => (IndexEnv.calm, op))).any fun s' =>
        decide (¬ ((toyXapian.docs s'.stored).filter fun doc => doc.data = ascii "entry-1").length ≤ 1) := by
    decide +kernel
  obtain ⟨s', hrun, h⟩ := (Option.any_eq_true _ _).mp hcheck
  exact ⟨s', hrun, of_decide_eq_true h⟩

end Passdoq
