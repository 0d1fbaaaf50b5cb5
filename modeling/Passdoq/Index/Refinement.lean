import Passdoq.Index.Catalogue
import Passdoq.Index.Rebuild

/-!
# The index refines the catalogue

* `Catalogued s c` : the index holds the documents of the entries of the catalogue;
* `exec_filing` : each call of the manager, whatever fails in it, is a call on the catalogue; `filing_exec` : each call on the
  catalogue is one of the manager, with some failures;
* `hits_built`, `listed_getMset` : a query that is built finds what its clauses select; `exec_looking` : the calls of the engine;
* `catalogue_run`, `catalogue_realised` : the histories of both.
-/

namespace Passdoq

open IndexManager

/-! ## What a call on the index does -/

inductive Disk.Rel {α β : Type} (R : α → β → Prop) : Disk α → Disk β → Prop
  | absent : Rel R .absent .absent
  | bare : Rel R .bare .bare
  | holds {a : α} {b : β} (h : R a b) : Rel R (.holds a) (.holds b)

variable {X : Xapian} {e : IndexEnv} {s s' : Index X} {db : X.Db} {c c' : Catalogue}

namespace IndexManager

/-- `create` opens what there is, or fails and leaves it; while a database is open it fails. -/
theorem create_cases (e : IndexEnv) (s : Index X) : (s.writer = none ∧ create e s = (.ok true, s.settle s.stored)) ∨
    create e s = (.ok false, s) ∨ create e s = (.error .filesystem, s) := by
  unfold create orFalse
  rw [Eff.catching_apply]
  cases e.directories with
  | false => simp [IndexFault.isXapian]
  | true =>
    rcases attach_cases e s with ⟨-, hw, ha⟩ | ⟨-, ha⟩
    · simp [ha, hw]
    · simp [ha, IndexFault.isXapian]

theorem open_cases (e : IndexEnv) (s : Index X) :
    (s.writer = none ∧ s.disk ≠ .bare ∧ IndexManager.open e s = (.ok true, s.settle s.stored)) ∨
      IndexManager.open e s = (.ok false, s) ∨ IndexManager.open e s = (.error .filesystem, s) := by
  unfold IndexManager.open orFalse
  rw [Eff.catching_apply]
  cases hs : e.stat with
  | false => simp [existsIndex, hs, IndexFault.isXapian]
  | true =>
    cases hd : s.disk with
    | absent =>
      rcases create_cases e s with ⟨hw, h⟩ | h | h
      · simp [existsIndex, hs, hd, h, hw]
      · simp [existsIndex, hs, hd, h]
      · simp [existsIndex, hs, hd, h, IndexFault.isXapian]
    | bare => simp [existsIndex, hs, hd, IndexFault.isXapian]
    | holds db =>
      rcases attach_cases e s with ⟨-, hw, ha⟩ | ⟨-, ha⟩
      · simp [existsIndex, hs, hd, ha, hw]
      · simp [existsIndex, hs, hd, ha, IndexFault.isXapian]

theorem close_settled (e : IndexEnv) (h : s.Settled) : close e s = (.ok (), { s with writer := none }) := by
  have hend : ∃ s', close e s = (.ok (), s') := by
    unfold close
    cases hw : s.writer with
    | none => exact ⟨s, by simp [hw]⟩
    | some db => cases hc : e.commits <;> simp [hw, Eff.catching_apply, commit, hc, setWriter, IndexFault.isXapian]
  obtain ⟨s', hclose⟩ := hend
  rw [hclose, close_ok hclose h]

/-- A change is made and acknowledged, or not made, or made and not acknowledged. -/
theorem changeEntry_cases (hX : X.Lawful) (e : IndexEnv) (f : X.Db → X.Db) (h : s.Settled) (hw : s.writer = some db) :
    changeEntry e f s = (.ok true, s.settle (f db)) ∨ changeEntry e f s = (.ok false, s) ∨
      changeEntry e f s = (.ok false, s.settle (f db)) := by
  have hdisk : s.disk = .holds db := h db hw
  have hself : { s with disk := .holds db, writer := some db } = s := by rw [← hdisk, ← hw]
  unfold changeEntry orFalse
  simp only [Eff.bind_apply, Eff.get_apply, hw, Option.isNone_some, Bool.false_eq_true, if_false, Eff.catching_apply]
  cases ha : e.accepts 0 with
  | false =>
    right
    left
    simp [change, hw, ha, setWriter, IndexFault.isXapian, hX.afterError_committed, Index.stored, hdisk, hself]
  | true =>
    cases hc : e.commits with
    | true => simp [change, commit, hw, ha, hc, Index.settle]
    | false =>
      right
      cases hf : e.flushes 0 with
      | true =>
        right
        simp [change, commit, hw, ha, hc, hf, setWriter, IndexFault.isXapian, hX.afterError_committed, Index.stored,
          Index.settle]
      | false =>
        left
        simp [change, commit, hw, ha, hc, hf, setWriter, IndexFault.isXapian, hX.afterError_committed, Index.stored, hdisk,
          hself]

theorem create_absent (e : IndexEnv) (hs : s.disk = .absent) :
    Eff.catching IndexFault.isException (create e) (pure false) s = (.ok true, s.settle X.empty) ∨
      Eff.catching IndexFault.isException (create e) (pure false) s = (.ok false, s) := by
  have hstored : s.stored = X.empty := by rw [Index.stored, hs]
  rw [Eff.catching_apply]
  rcases create_cases e s with ⟨-, hc⟩ | hc | hc
  · left
    rw [hc, hstored]
  · right
    rw [hc]
  · right
    rw [hc]
    rfl

theorem clear_removes (e : IndexEnv) (h : s.Settled) :
    (∃ disk, Catalogue.Uncleared s.disk disk ∧ clear e s = (.ok false, { s with disk := disk, writer := none })) ∨
      clear e s = Eff.catching IndexFault.isException (create e) (pure false) { s with disk := .absent, writer := none } := by
  unfold clear
  rw [Eff.bind_apply, close_settled e h]
  dsimp only
  rw [Eff.catching_apply, Eff.catching_apply]
  cases hs : e.stat with
  | false => exact .inl ⟨s.disk, .inl rfl, by simp [existsIndex, hs, IndexFault.isException]⟩
  | true =>
    by_cases habsent : s.disk = .absent
    · right
      simp [existsIndex, hs, habsent]
    · have hthere : existsIndex e { s with writer := none } = (.ok true, { s with writer := none }) := by
        cases hd : s.disk with
        | absent => exact absurd hd habsent
        | bare => simp [existsIndex, hs]
        | holds db => simp [existsIndex, hs]
      cases hr : e.remove with
      | refused => exact .inl ⟨s.disk, .inl rfl, by simp [hthere, removeAll, hr, IndexFault.isException]⟩
      | broken => exact .inl ⟨.bare, .inr (.inr ⟨rfl, habsent⟩), by simp [hthere, removeAll, hr, IndexFault.isException]⟩
      | whole =>
        right
        simp [hthere, removeAll, hr]

/-- A clearing leaves an empty index open, or fails and leaves it closed. -/
theorem clear_cases (e : IndexEnv) (h : s.Settled) : clear e s = (.ok true, s.settle X.empty) ∨
    ∃ disk, Catalogue.Uncleared s.disk disk ∧ clear e s = (.ok false, { s with disk := disk, writer := none }) := by
  rcases clear_removes e h with hfail | hcreate
  · exact .inr hfail
  · rw [hcreate]
    rcases create_absent (s := { s with disk := .absent, writer := none }) e rfl with hc | hc
    · left
      rw [hc]
      rfl
    · exact .inr ⟨.absent, .inr (.inl rfl), hc⟩

/-- A rebuild is whole, or fails in the clearing, or leaves some of the first entries. -/
theorem rebuildIndex_cases (hX : X.Lawful) (e : IndexEnv) (entries : List Entry) (h : s.Settled) :
    rebuildIndex e entries s = (.ok true, s.settle (addAll X X.empty entries)) ∨
      (∃ disk, Catalogue.Uncleared s.disk disk ∧
        rebuildIndex e entries s = (.ok false, { s with disk := disk, writer := none })) ∨
      ∃ k ≤ entries.length, rebuildIndex e entries s = (.ok false, s.settle (addAll X X.empty (entries.take k))) := by
  rcases clear_cases e h with hclear | ⟨disk, hdisk, hclear⟩
  · by_cases hall : ∀ i < entries.length, e.accepts i = true
    · have hadded := addEntries_accepted hall s X.empty
      unfold rebuildIndex
      rw [Eff.bind_apply, hclear]
      cases hc : e.commits with
      | true =>
        left
        simp [orFalse, Eff.catching_apply, hadded, commit, hc]
        rfl
      | false =>
        right
        right
        refine ⟨flushed e entries.length, flushed_le e _, ?_⟩
        simp [orFalse, Eff.catching_apply, hadded, commit, hc, setWriter, IndexFault.isXapian, hX.afterError_committed]
        rfl
    · -- the first entry that is not accepted
      push Not at hall
      obtain ⟨hlt, hnot⟩ := Nat.find_spec hall
      have hrejects : Rejects e entries (Nat.find hall) := by
        refine ⟨hlt, Bool.eq_false_iff.mpr hnot, fun i hi => ?_⟩
        by_contra hno
        exact Nat.find_min hall hi ⟨by omega, hno⟩
      have hle := flushed_le e (Nat.find hall)
      exact .inr (.inr ⟨_, by omega, rebuildIndex_rejected hX hclear hrejects⟩)
  · right
    left
    refine ⟨disk, hdisk, ?_⟩
    unfold rebuildIndex
    rw [Eff.bind_apply, hclear]
    rfl

theorem changeEntry_none (e : IndexEnv) (f : X.Db → X.Db) (hw : s.writer = none) : changeEntry e f s = (.ok false, s) := by
  simp [changeEntry, hw]

end IndexManager

/-! ## The manager -/

/-- The documents of a database are those of the entries. -/
def Kept (X : Xapian) (db : X.Db) (entries : Multiset Entry) : Prop :=
  (X.docs db : Multiset Document) = entries.map entryToDocument

/-- Between two calls nothing is left to commit. -/
structure Catalogued (s : Index X) (c : Catalogue) : Prop where
  disk : Disk.Rel (Kept X) s.disk c.disk
  attached : s.writer.isSome = c.attached
  settled : s.Settled
  reader : Option.Rel (Kept X) s.reader c.shown

section Kept

variable {entries : Multiset Entry}

theorem kept_empty (hX : X.Lawful) : Kept X X.empty 0 := by
  unfold Kept
  rw [hX.docs_empty]
  rfl

theorem Kept.add (h : Kept X db entries) (hX : X.Lawful) (entry : Entry) :
    Kept X (X.addDocument db (entryToDocument entry)) (entry ::ₘ entries) := by
  unfold Kept at h ⊢
  rw [Multiset.coe_eq_coe.mpr (hX.docs_add db _), ← Multiset.cons_coe, h, Multiset.map_cons]

theorem Kept.without (h : Kept X db entries) (hX : X.Lawful) (id : Bytes) :
    (((X.docs db).filter fun doc => ¬ X.carries doc (getDocId id) : List Document) : Multiset Document) =
      (entries.filter fun other => other.id ≠ id).map entryToDocument := by
  unfold Kept at h
  rw [← Multiset.filter_coe, h, Multiset.filter_map]
  congr 1
  apply Multiset.filter_congr
  intro entry _
  exact not_congr (carries_docId hX entry id)

theorem Kept.replace (h : Kept X db entries) (hX : X.Lawful) (entry : Entry) :
    Kept X (X.replaceDocument db (getDocId entry.id) (entryToDocument entry))
      (entry ::ₘ entries.filter fun other => other.id ≠ entry.id) := by
  unfold Kept
  rw [Multiset.coe_eq_coe.mpr (hX.docs_replace db _ _), ← Multiset.cons_coe, h.without hX, Multiset.map_cons]

theorem Kept.delete (h : Kept X db entries) (hX : X.Lawful) (id : Bytes) :
    Kept X (X.deleteDocument db (getDocId id)) (entries.filter fun other => other.id ≠ id) := by
  unfold Kept
  rw [Multiset.coe_eq_coe.mpr (hX.docs_delete db _), h.without hX]

theorem kept_addAll (hX : X.Lawful) (entries : List Entry) : Kept X (addAll X X.empty entries) entries := by
  have hdocs := addAll_docs hX X.empty entries
  rw [hX.docs_empty, List.nil_append] at hdocs
  unfold Kept
  rw [Multiset.coe_eq_coe.mpr hdocs, Multiset.map_coe]

end Kept

/-- A call that changes entries is a change of the database that does the same to its documents. -/
theorem exec_change (hX : X.Lawful) {op : IndexOp} {f : Multiset Entry → Multiset Entry} (hop : op.change = some f) :
    ∃ g : X.Db → X.Db, (∀ e, IndexManager.exec e op = changeEntry e g) ∧
      ∀ db entries, Kept X db entries → Kept X (g db) (f entries) := by
  cases op with
  | indexEntry entry =>
    obtain rfl := Option.some.inj hop
    exact ⟨_, fun _ => rfl, fun db entries h => h.add hX entry⟩
  | updateEntry entry =>
    obtain rfl := Option.some.inj hop
    exact ⟨_, fun _ => rfl, fun db entries h => h.replace hX entry⟩
  | removeEntry id =>
    obtain rfl := Option.some.inj hop
    exact ⟨_, fun _ => rfl, fun db entries h => h.delete hX id⟩
  | create | «open» | close | clear | rebuildIndex => cases hop

namespace Catalogued

variable {entries : Multiset Entry}

theorem fresh (X : Xapian) : Catalogued (Index.fresh X) .fresh := ⟨.absent, rfl, nofun, .none⟩

theorem stored (h : Catalogued s c) (hX : X.Lawful) : Kept X s.stored c.stored := by
  have hdisk := h.disk
  unfold Index.stored Catalogue.stored
  cases hs : s.disk <;> cases hc : c.disk <;> rw [hs, hc] at hdisk <;> cases hdisk
  · exact kept_empty hX
  · exact kept_empty hX
  · next hkept => exact hkept

theorem settle (h : Catalogued s c) (hdb : Kept X db entries) : Catalogued (s.settle db) (c.settle entries) :=
  ⟨.holds hdb, rfl, fun _ hw => congrArg Disk.holds (Option.some.inj hw), h.reader⟩

theorem detach (h : Catalogued s c) : Catalogued { s with writer := none } c.detach := ⟨h.disk, rfl, nofun, h.reader⟩

theorem bare_iff (h : Catalogued s c) : s.disk = .bare ↔ c.disk = .bare := by
  have hdisk := h.disk
  cases hs : s.disk <;> cases hc : c.disk <;> rw [hs, hc] at hdisk <;> cases hdisk <;> simp

theorem absent_iff (h : Catalogued s c) : s.disk = .absent ↔ c.disk = .absent := by
  have hdisk := h.disk
  cases hs : s.disk <;> cases hc : c.disk <;> rw [hs, hc] at hdisk <;> cases hdisk <;> simp

theorem uncleared (h : Catalogued s c) {disk : Disk X.Db} (hdisk : Catalogue.Uncleared s.disk disk) :
    ∃ disk', Catalogue.Uncleared c.disk disk' ∧
      Catalogued { s with disk := disk, writer := none } { c.detach with disk := disk' } := by
  rcases hdisk with rfl | rfl | ⟨rfl, hne⟩
  · exact ⟨c.disk, .inl rfl, h.detach⟩
  · exact ⟨.absent, .inr (.inl rfl), .absent, rfl, nofun, h.reader⟩
  · exact ⟨.bare, .inr (.inr ⟨rfl, fun hc => hne (h.absent_iff.mpr hc)⟩), .bare, rfl, nofun, h.reader⟩

theorem free (h : Catalogued s c) (hw : s.writer = none) : c.attached = false := by
  rw [← h.attached, hw]
  rfl

theorem writer_none (h : Catalogued s c) (hfree : c.attached = false) : s.writer = none := by
  rw [← h.attached] at hfree
  exact Option.isNone_iff_eq_none.mp (by simpa using hfree)

theorem writer (h : Catalogued s c) (hw : s.writer = some db) : s.stored = db ∧ c.attached = true := by
  refine ⟨Index.stored_of_holds (h.settled db hw), ?_⟩
  rw [← h.attached, hw]
  rfl

end Catalogued

open Catalogue

/-- A call of the manager, with whatever fails in it, is one on the catalogue. -/
theorem exec_filing (hX : X.Lawful) (hR : Catalogued s c) (e : IndexEnv) (op : IndexOp) :
    ∃ c', c.Filing op (IndexManager.exec e op s).1 c' ∧ Catalogued (IndexManager.exec e op s).2 c' := by
  have hstored := hR.stored hX
  have hchange : ∀ f, op.change = some f →
      ∃ c', c.Filing op (IndexManager.exec e op s).1 c' ∧ Catalogued (IndexManager.exec e op s).2 c' := by
    intro f hop
    obtain ⟨g, hexec, hg⟩ := exec_change hX hop
    rw [hexec]
    cases hw : s.writer with
    | none =>
      rw [changeEntry_none e g hw]
      exact ⟨c, .dropped hop, hR⟩
    | some db =>
      obtain ⟨hdb, hattached⟩ := hR.writer hw
      rw [hdb] at hstored
      have hsettle := hR.settle (hg db c.stored hstored)
      rcases changeEntry_cases hX e g hR.settled hw with h | h | h
      · rw [h]
        exact ⟨_, .changed hop hattached, hsettle⟩
      · rw [h]
        exact ⟨c, .dropped hop, hR⟩
      · rw [h]
        exact ⟨_, .flushed hop hattached, hsettle⟩
  cases op with
  | create =>
    rw [IndexManager.exec]
    rcases create_cases e s with ⟨hw, h⟩ | h | h
    · rw [h]
      exact ⟨_, .created (hR.free hw), hR.settle hstored⟩
    · rw [h]
      exact ⟨c, .uncreated (.inl rfl), hR⟩
    · rw [h]
      exact ⟨c, .uncreated (.inr rfl), hR⟩
  | «open» =>
    rw [IndexManager.exec]
    rcases open_cases e s with ⟨hw, hbare, h⟩ | h | h
    · rw [h]
      exact ⟨_, .opened (hR.free hw) (fun hc => hbare (hR.bare_iff.mpr hc)), hR.settle hstored⟩
    · rw [h]
      exact ⟨c, .unopened (.inl rfl), hR⟩
    · rw [h]
      exact ⟨c, .unopened (.inr rfl), hR⟩
  | close =>
    rw [IndexManager.exec, Eff.map_apply, close_settled e hR.settled]
    exact ⟨_, .closed, hR.detach⟩
  | clear =>
    rw [IndexManager.exec]
    rcases clear_cases e hR.settled with h | ⟨disk, hdisk, h⟩
    · rw [h]
      exact ⟨_, .cleared, hR.settle (kept_empty hX)⟩
    · obtain ⟨disk', hdisk', hrep⟩ := hR.uncleared hdisk
      rw [h]
      exact ⟨_, .uncleared hdisk', hrep⟩
  | rebuildIndex entries =>
    rw [IndexManager.exec]
    rcases rebuildIndex_cases hX e entries hR.settled with h | ⟨disk, hdisk, h⟩ | ⟨k, hk, h⟩
    · rw [h]
      exact ⟨_, .rebuilt entries, hR.settle (kept_addAll hX entries)⟩
    · obtain ⟨disk', hdisk', hrep⟩ := hR.uncleared hdisk
      rw [h]
      exact ⟨_, .unstarted entries hdisk', hrep⟩
    · rw [h]
      exact ⟨_, .stopped entries k hk, hR.settle (kept_addAll hX _)⟩
  | indexEntry entry => exact hchange _ rfl
  | updateEntry entry => exact hchange _ rfl
  | removeEntry id => exact hchange _ rfl

/-! ## Every way to answer -/

namespace IndexManager

theorem clear_whole (h : s.Settled) (hstat : e.stat = true) (hdirs : e.directories = true) (hopens : e.opens = true)
    (hremove : e.remove = .whole) : clear e s = (.ok true, s.settle X.empty) := by
  have hcreate : ∀ t : Index X, t.writer = none → create e t = (.ok true, t.settle t.stored) := by
    intro t hw
    simp [create, attach, hw, orFalse, Eff.catching_apply, hdirs, hopens, Index.settle]
  unfold clear
  rw [Eff.bind_apply, close_settled e h]
  dsimp only
  rw [Eff.catching_apply]
  cases hd : s.disk <;> simp [existsIndex, hstat, removeAll, hremove, hcreate, Index.settle, Index.stored]

theorem clear_uncleared (h : s.Settled) {disk : Disk X.Db} (hdisk : Uncleared s.disk disk) :
    ∃ e, clear e s = (.ok false, { s with disk := disk, writer := none }) := by
  have hclose := fun e => close_settled e h
  rcases hdisk with rfl | rfl | ⟨rfl, hne⟩
  · refine ⟨{ IndexEnv.calm with stat := false }, ?_⟩
    simp [clear, hclose, Eff.catching_apply, existsIndex, IndexFault.isException]
  · refine ⟨{ IndexEnv.calm with directories := false }, ?_⟩
    cases hd : s.disk <;> simp [clear, hclose, Eff.catching_apply, existsIndex, IndexFault.isException, IndexEnv.calm, hd,
      removeAll, create, orFalse, IndexFault.isXapian]
  · refine ⟨{ IndexEnv.calm with remove := .broken }, ?_⟩
    cases hd : s.disk with
    | absent => exact absurd hd hne
    | bare | holds => simp [clear, hclose, Eff.catching_apply, existsIndex, IndexFault.isException, IndexEnv.calm, hd, removeAll]

/-- The library commits on its own once, behind the `k`-th document. -/
theorem flushed_once {k n : Nat} (he : ∀ i, e.flushes i = decide (i + 1 = k)) (hk : k ≤ n) : flushed e n = k := by
  induction n with
  | zero => exact (Nat.le_zero.mp hk).symm
  | succ n ih =>
    unfold flushed
    rw [he]
    by_cases hlast : n + 1 = k
    · rw [if_pos (decide_eq_true hlast), hlast]
    · rw [if_neg (by simpa using hlast)]
      exact ih (by omega)

/-- Whatever part of the first entries a rebuild may leave, one does. -/
theorem rebuildIndex_stopped (hX : X.Lawful) (h : s.Settled) {entries : List Entry} {k : Nat} (hk : k ≤ entries.length) :
    ∃ e, rebuildIndex e entries s = (.ok false, s.settle (addAll X X.empty (entries.take k))) := by
  refine ⟨{ IndexEnv.calm with commits := false, flushes := fun i => decide (i + 1 = k) }, ?_⟩
  generalize he : ({ IndexEnv.calm with commits := false, flushes := fun i => decide (i + 1 = k) } : IndexEnv) = e
  have hclear := clear_whole (e := e) h (by rw [← he]; rfl) (by rw [← he]; rfl) (by rw [← he]; rfl) (by rw [← he]; rfl)
  have hadded := addEntries_accepted (e := e) (fun i (_ : i < entries.length) => by rw [← he]; rfl) s X.empty
  have hcommits : e.commits = false := by rw [← he]
  rw [flushed_once (fun _ => by rw [← he]) hk] at hadded
  unfold rebuildIndex
  rw [Eff.bind_apply, hclear]
  simp [orFalse, Eff.catching_apply, hadded, commit, hcommits, setWriter, IndexFault.isXapian, hX.afterError_committed]
  rfl

theorem rebuildIndex_whole (h : s.Settled) (entries : List Entry) :
    rebuildIndex .calm entries s = (.ok true, s.settle (addAll X X.empty entries)) := by
  have hclear := clear_whole (e := .calm) h rfl rfl rfl rfl
  have hadded := addEntries_accepted (e := .calm) (fun i (_ : i < entries.length) => rfl) s X.empty
  have hcommits : IndexEnv.calm.commits = true := rfl
  unfold rebuildIndex
  rw [Eff.bind_apply, hclear]
  simp [orFalse, Eff.catching_apply, hadded, commit, hcommits]
  rfl

end IndexManager

theorem Catalogued.uncleared_back (h : Catalogued s c) {disk' : Disk (Multiset Entry)} (hdisk : Uncleared c.disk disk') :
    ∃ disk, Uncleared s.disk disk ∧ Catalogued { s with disk := disk, writer := none } { c.detach with disk := disk' } := by
  rcases hdisk with rfl | rfl | ⟨rfl, hne⟩
  · exact ⟨s.disk, .inl rfl, h.detach⟩
  · exact ⟨.absent, .inr (.inl rfl), .absent, rfl, nofun, h.reader⟩
  · exact ⟨.bare, .inr (.inr ⟨rfl, fun hs => hne (h.absent_iff.mp hs)⟩), .bare, rfl, nofun, h.reader⟩

theorem Catalogued.attached_writer (h : Catalogued s c) (hc : c.attached = true) : ∃ db, s.writer = some db := by
  rw [← h.attached] at hc
  exact Option.isSome_iff_exists.mp hc

/-- Whatever a call may answer on the catalogue and leave, a call on the index does, with some failures. -/
theorem filing_exec (hX : X.Lawful) (hR : Catalogued s c) {op : IndexOp} {answer : Except IndexFault Bool}
    (hf : c.Filing op answer c') : ∃ e s', IndexManager.exec e op s = (answer, s') ∧ Catalogued s' c' := by
  have hstored := hR.stored hX
  cases hf with
  | created hfree =>
    refine ⟨.calm, _, ?_, hR.settle hstored⟩
    simp [IndexManager.exec, create, attach, hR.writer_none hfree, orFalse, Eff.catching_apply, IndexEnv.calm, Index.settle]
  | opened hfree hbare =>
    have hw := hR.writer_none hfree
    refine ⟨.calm, _, ?_, hR.settle hstored⟩
    cases hd : s.disk with
    | bare => exact absurd (hR.bare_iff.mp hd) hbare
    | absent => simp [IndexManager.exec, IndexManager.open, existsIndex, create, attach, hw, orFalse, Eff.catching_apply,
        IndexEnv.calm, Index.settle, hd]
    | holds db => simp [IndexManager.exec, IndexManager.open, existsIndex, attach, hw, orFalse, Eff.catching_apply,
        IndexEnv.calm, Index.settle, hd]
  | uncreated h =>
    rcases h with rfl | rfl
    · refine ⟨{ IndexEnv.calm with opens := false }, s, ?_, hR⟩
      simp [IndexManager.exec, create, attach, orFalse, Eff.catching_apply, IndexEnv.calm, IndexFault.isXapian]
    · refine ⟨{ IndexEnv.calm with directories := false }, s, ?_, hR⟩
      simp [IndexManager.exec, create, orFalse, Eff.catching_apply, IndexFault.isXapian]
  | unopened h =>
    rcases h with rfl | rfl
    · refine ⟨{ IndexEnv.calm with opens := false }, s, ?_, hR⟩
      cases hd : s.disk <;> simp [IndexManager.exec, IndexManager.open, existsIndex, create, attach, orFalse,
        Eff.catching_apply, IndexEnv.calm, IndexFault.isXapian, hd]
    · refine ⟨{ IndexEnv.calm with stat := false }, s, ?_, hR⟩
      simp [IndexManager.exec, IndexManager.open, existsIndex, orFalse, Eff.catching_apply, IndexFault.isXapian]
  | closed =>
    refine ⟨.calm, _, ?_, hR.detach⟩
    rw [IndexManager.exec, Eff.map_apply, close_settled .calm hR.settled]
  | changed hop h =>
    obtain ⟨g, hexec, hg⟩ := exec_change hX hop
    obtain ⟨db, hw⟩ := hR.attached_writer h
    rw [(hR.writer hw).1] at hstored
    refine ⟨.calm, _, ?_, hR.settle (hg db _ hstored)⟩
    rw [hexec]
    simp [changeEntry, change, commit, orFalse, Eff.catching_apply, hw, IndexEnv.calm, Index.settle]
  | dropped hop =>
    obtain ⟨g, hexec, -⟩ := exec_change hX hop
    refine ⟨{ IndexEnv.calm with accepts := fun _ => false }, s, ?_, hR⟩
    rw [hexec]
    cases hw : s.writer with
    | none => exact changeEntry_none _ g hw
    | some db =>
      have hdisk : s.disk = .holds db := hR.settled db hw
      have hself : { s with disk := .holds db, writer := some db } = s := by rw [← hdisk, ← hw]
      simp [changeEntry, change, orFalse, Eff.catching_apply, hw, setWriter, IndexFault.isXapian, hX.afterError_committed,
        Index.stored, hdisk, hself]
  | flushed hop h =>
    obtain ⟨g, hexec, hg⟩ := exec_change hX hop
    obtain ⟨db, hw⟩ := hR.attached_writer h
    rw [(hR.writer hw).1] at hstored
    refine ⟨{ IndexEnv.calm with flushes := fun _ => true, commits := false }, _, ?_, hR.settle (hg db _ hstored)⟩
    rw [hexec]
    simp [changeEntry, change, commit, orFalse, Eff.catching_apply, hw, setWriter, IndexEnv.calm, IndexFault.isXapian,
      hX.afterError_committed, Index.settle, Index.stored]
  | cleared => exact ⟨.calm, _, clear_whole hR.settled rfl rfl rfl rfl, hR.settle (kept_empty hX)⟩
  | uncleared hdisk =>
    obtain ⟨disk, hdisk, hrep⟩ := hR.uncleared_back hdisk
    obtain ⟨e, he⟩ := clear_uncleared hR.settled hdisk
    exact ⟨e, _, he, hrep⟩
  | rebuilt entries => exact ⟨.calm, _, rebuildIndex_whole hR.settled entries, hR.settle (kept_addAll hX entries)⟩
  | stopped entries k hk =>
    obtain ⟨e, he⟩ := rebuildIndex_stopped hX hR.settled hk
    exact ⟨e, _, he, hR.settle (kept_addAll hX _)⟩
  | unstarted entries hdisk =>
    obtain ⟨disk, hdisk, hrep⟩ := hR.uncleared_back hdisk
    obtain ⟨e, he⟩ := clear_uncleared hR.settled hdisk
    refine ⟨e, _, ?_, hrep⟩
    rw [IndexManager.exec, rebuildIndex, Eff.bind_apply, he]
    rfl

/-! ## The engine -/

open SearchEngine

/-- What is documented of the results of a query: they are the first of all matches in one order. The empty term stands for
every document. -/
structure Xapian.Ranks (X : Xapian) : Prop where
  ranked (db : X.Db) (q : X.Query) : ∃ ranked : List Document, ranked.Perm ((X.docs db).filter (X.hits db q)) ∧
    ∀ n, (X.getMset db q n).map Prod.fst = ranked.take n
  hits_blank (db : X.Db) (wqf pos : Nat) (doc : Document) : X.hits db (X.term [] wqf pos) doc

def Clause.add (b : QueryBuilder X) : Clause → QueryBuilder X
  | .addTerm term => b.addTerm term
  | .addPhrase phrase => b.addPhrase phrase
  | .filterTag tag => b.filterTag tag
  | .filterMetadata key value => b.filterMetadata key value

/-- The query of a builder after some calls. -/
def built (X : Xapian) (clauses : List Clause) : X.Query := (clauses.foldl Clause.add QueryBuilder.empty).build

def EngineCall.query (X : Xapian) : EngineCall → Query X
  | .existsIndex => .existsIndex
  | .open => .open
  | .close => .close
  | .search clauses maxResults => .search (built X clauses) maxResults
  | .searchString queryString maxResults => .searchString queryString maxResults
  | .searchByTag tag maxResults => .searchByTag tag maxResults
  | .searchMetadata key value maxResults => .searchMetadata key value maxResults
  | .suggest start maxSuggestions => .suggest start maxSuggestions

theorem carries_iff_bears (X : Xapian) (entry : Entry) (term : Bytes) :
    X.carries (entryToDocument entry) term = true ↔ Bears X.textTerms entry term := carries_entryToDocument X entry term

theorem queries_clauses (b : QueryBuilder X) (clauses : List Clause) : (clauses.foldl Clause.add b).queries =
    b.queries ++ (clauses.filterMap Clause.asked).map fun term => X.term term 1 0 := by
  induction clauses generalizing b with
  | nil => simp
  | cons clause clauses ih =>
    rw [List.foldl_cons, ih]
    cases clause <;> simp [Clause.add, Clause.asked, QueryBuilder.addTerm, QueryBuilder.addPhrase, QueryBuilder.filterTag,
      QueryBuilder.filterMetadata, List.filterMap_cons]

theorem filters_clauses (b : QueryBuilder X) (clauses : List Clause) : (clauses.foldl Clause.add b).filters =
    b.filters ++ (clauses.filterMap Clause.required).map fun term => X.term term 1 0 := by
  induction clauses generalizing b with
  | nil => simp
  | cons clause clauses ih =>
    rw [List.foldl_cons, ih]
    cases clause <;> simp [Clause.add, Clause.required, QueryBuilder.addTerm, QueryBuilder.addPhrase, QueryBuilder.filterTag,
      QueryBuilder.filterMetadata, List.filterMap_cons, tagTerm, metadataTerm]

theorem required_ne_nil {clauses : List Clause} {term : Bytes} (h : term ∈ clauses.filterMap Clause.required) : term ≠ [] := by
  obtain ⟨clause, -, hterm⟩ := List.mem_filterMap.mp h
  cases clause with
  | addTerm | addPhrase => cases hterm
  | filterTag tag =>
    obtain rfl := Option.some.inj hterm
    simp [tagTerm, ascii]
  | filterMetadata key value =>
    obtain rfl := Option.some.inj hterm
    simp [metadataTerm, ascii]

/-- The part of a built query that its terms and phrases make. -/
def offered (b : QueryBuilder X) : X.Query := if b.queries.isEmpty then X.matchAll else X.orAll b.queries

theorem build_eq (b : QueryBuilder X) :
    b.build = if b.filters.isEmpty then offered b else X.filter (offered b) (X.andAll b.filters) := by
  unfold QueryBuilder.build offered
  cases b.queries.isEmpty <;> cases b.filters.isEmpty <;> rfl

theorem hits_asked (hX : X.Lawful) (hR : X.Ranks) (db : X.Db) (entry : Entry) (term : Bytes) :
    X.hits db (X.term term 1 0) (entryToDocument entry) = true ↔ term = [] ∨ Bears X.textTerms entry term := by
  by_cases hterm : term = []
  · rw [hterm]
    exact iff_of_true (hR.hits_blank db 1 0 _) (.inl rfl)
  · rw [hX.hits_term db hterm, carries_iff_bears, or_iff_right hterm]

/-- A built query matches the documents of the entries that its clauses select. -/
theorem hits_built (hX : X.Lawful) (hR : X.Ranks) (db : X.Db) (clauses : List Clause) (entry : Entry) :
    X.hits db (built X clauses) (entryToDocument entry) = true ↔ Selects X.textTerms clauses entry := by
  have hqueries := queries_clauses (QueryBuilder.empty : QueryBuilder X) clauses
  have hfilters := filters_clauses (QueryBuilder.empty : QueryBuilder X) clauses
  rw [show (QueryBuilder.empty : QueryBuilder X).queries = [] from rfl, List.nil_append] at hqueries
  rw [show (QueryBuilder.empty : QueryBuilder X).filters = [] from rfl, List.nil_append] at hfilters
  have hoffered : X.hits db (offered (clauses.foldl Clause.add QueryBuilder.empty)) (entryToDocument entry) = true ↔
      (clauses.filterMap Clause.asked = [] ∨
        ∃ term ∈ clauses.filterMap Clause.asked, term = [] ∨ Bears X.textTerms entry term) := by
    unfold offered
    rw [hqueries, List.isEmpty_map]
    by_cases hnone : clauses.filterMap Clause.asked = []
    · rw [hnone]
      exact iff_of_true (hX.hits_matchAll db _) (.inl rfl)
    · rw [List.isEmpty_eq_false_iff.mpr hnone, if_neg Bool.false_ne_true, hX.hits_orAll, List.any_map, List.any_eq_true,
        or_iff_right hnone]
      exact exists_congr fun term => and_congr_right fun _ => hits_asked hX hR db entry term
  unfold built Selects
  rw [build_eq, hfilters, List.isEmpty_map, ← hoffered]
  by_cases hnone : clauses.filterMap Clause.required = []
  · rw [hnone]
    exact (and_iff_left nofun).symm
  · have hne : (clauses.filterMap Clause.required).map (fun term => X.term term 1 0) ≠ [] := by
      rwa [ne_eq, List.map_eq_nil_iff]
    rw [List.isEmpty_eq_false_iff.mpr hnone, if_neg Bool.false_ne_true, hX.hits_filter, Bool.and_eq_true,
      hX.hits_andAll db hne, List.all_map, List.all_eq_true]
    refine and_congr_right fun _ => forall₂_congr fun term hterm => ?_
    rw [← carries_iff_bears, ← hX.hits_term db (required_ne_nil hterm)]
    rfl

theorem exists_ranked {docs : List Document} {entries : Multiset Entry}
    (h : (docs : Multiset Document) = entries.map entryToDocument) :
    ∃ ranked : List Entry, (ranked : Multiset Entry) = entries ∧ docs = ranked.map entryToDocument := by
  obtain ⟨l, rfl⟩ := Quot.exists_rep entries
  have hperm : docs.Perm (l.map entryToDocument) := Multiset.coe_eq_coe.mp h
  have hpairs : List.Forall₂ (fun doc entry => doc = entryToDocument entry) (l.map entryToDocument) l :=
    List.forall₂_map_left_iff.mpr (List.forall₂_same.mpr fun _ _ => rfl)
  obtain ⟨ranked, hranked, hl⟩ := List.perm_comp_forall₂ hperm hpairs
  have hsame := List.forall₂_map_right_iff.mpr hranked
  rw [List.forall₂_eq_eq_eq] at hsame
  exact ⟨ranked, Multiset.coe_eq_coe.mpr hl, hsame⟩

theorem matchesToResults_shown (matches_ : List (Document × Nat)) :
    (matchesToResults matches_).map (fun r => (r.entryId, r.snippet)) =
      (matches_.map Prod.fst).map fun doc => (doc.data, snippet doc.data) := by
  simp [matchesToResults, snippet, Function.comp_def]

theorem listed_getMset (hR : X.Ranks) {entries : Multiset Entry} (hkept : Kept X db entries) (q : X.Query) (n : Nat)
    {P : Entry → Prop} (hP : ∀ entry, X.hits db q (entryToDocument entry) = true ↔ P entry) :
    Listed entries P n (matchesToResults (X.getMset db q n)) := by
  classical
  obtain ⟨docs, hperm, htake⟩ := hR.ranked db q
  have hfilter : ((X.docs db).filter (X.hits db q) : Multiset Document) =
      Multiset.filter (fun doc => X.hits db q doc = true) (X.docs db) := by
    rw [Multiset.filter_coe]
    simp
  have hdocs : (docs : Multiset Document) = (entries.filter P).map entryToDocument := by
    rw [Multiset.coe_eq_coe.mpr hperm, hfilter, hkept, Multiset.filter_map]
    congr 1
    exact Multiset.filter_congr fun entry _ => hP entry
  obtain ⟨ranked, hranked, rfl⟩ := exists_ranked hdocs
  refine ⟨ranked, hranked.trans (Multiset.filter_congr fun _ _ => Iff.rfl), ?_⟩
  rw [matchesToResults_shown, htake, ← List.map_take, List.map_map]
  rfl

theorem listed_none (entries : Multiset Entry) (n : Nat) {P : Entry → Prop} (hP : ∀ entry, ¬ P entry) :
    Listed entries P n [] := by
  classical
  refine ⟨[], ?_, by simp⟩
  rw [Multiset.filter_eq_nil.mpr fun entry _ => hP entry]
  rfl

theorem suggested_allTerms (hE : X.Enumerates) {entries : Multiset Entry} (hkept : Kept X db entries) (start : Bytes) (n : Nat) :
    Suggested X.textTerms entries start n ((X.allTerms db start).take n) := by
  refine ⟨X.allTerms db start, hE.sorted db start, rfl, fun term => ?_⟩
  rw [hE.mem_allTerms]
  refine and_congr_right fun _ => ?_
  have hdocs : ∀ doc, doc ∈ X.docs db ↔ ∃ entry ∈ entries, entryToDocument entry = doc := by
    intro doc
    rw [← Multiset.mem_coe, hkept, Multiset.mem_map]
  constructor
  · rintro ⟨doc, hdoc, hterm⟩
    obtain ⟨entry, hentry, rfl⟩ := (hdocs doc).mp hdoc
    exact ⟨entry, hentry, (carries_iff_bears X entry term).mp hterm⟩
  · rintro ⟨entry, hentry, hterm⟩
    exact ⟨_, (hdocs _).mpr ⟨entry, hentry, rfl⟩, (carries_iff_bears X entry term).mpr hterm⟩

theorem search_apply_cases (e : IndexEnv) (s : Index X) (q : X.Query) (n : Nat) :
    search e q n s = (.ok [], s) ∧ (s.reader = none ∨ e.reads = false) ∨
      ∃ db, s.reader = some db ∧ e.reads = true ∧ search e q n s = (.ok (matchesToResults (X.getMset db q n)), s) := by
  cases hr : s.reader with
  | none => exact .inl ⟨by simp [search, hr], .inl rfl⟩
  | some db =>
    cases hreads : e.reads with
    | true => exact .inr ⟨db, rfl, rfl, search_apply hr hreads q n⟩
    | false => exact .inl ⟨by simp [search, hr, orEmpty, Eff.catching_apply, hreads, IndexFault.isXapian], .inr rfl⟩

theorem engine_open_cases (e : IndexEnv) (s : Index X) : SearchEngine.open e s = (.ok false, s) ∨
    ∃ db, s.disk = .holds db ∧ SearchEngine.open e s = (.ok true, { s with reader := some db }) := by
  unfold SearchEngine.open orFalse
  rw [Eff.catching_apply]
  cases hd : s.disk with
  | absent => simp [hd, IndexFault.isXapian]
  | bare => simp [hd, IndexFault.isXapian]
  | holds db => cases e.opens <;> simp [hd, IndexFault.isXapian]

theorem searchString_cases (e : IndexEnv) (s : Index X) (queryString : Bytes) (n : Nat) :
    searchString e queryString n s = (.ok [], s) ∨ ∃ q, searchString e queryString n s = search e q n s := by
  cases hr : s.reader with
  | none => exact .inl (by simp [searchString, hr])
  | some db =>
    cases hq : X.parseQuery db queryString with
    | none => exact .inl (searchString_unparsed hr hq)
    | some q =>
      right
      refine ⟨q, ?_⟩
      rcases search_apply_cases e s q n with ⟨h, -⟩ | ⟨db', -, -, h⟩ <;>
        simp [searchString, hr, orEmpty, Eff.catching_apply, hq, h]

section Engine

variable (hX : X.Lawful) (hK : X.Ranks) (hE : X.Enumerates) (hR : Catalogued s c)

theorem Catalogued.shown (hR : Catalogued s c) (hr : s.reader = some db) : ∃ entries, c.shown = some entries ∧ Kept X db entries := by
  have hreader := hR.reader
  rw [hr] at hreader
  generalize hc : c.shown = shown at hreader
  cases hreader with
  | some hkept => exact ⟨_, rfl, hkept⟩

theorem Catalogued.shown_none (hR : Catalogued s c) (hr : s.reader = none) : c.shown = none := by
  have hreader := hR.reader
  rw [hr] at hreader
  generalize hc : c.shown = shown at hreader
  cases hreader
  rfl

theorem Catalogued.holds (hR : Catalogued s c) (hd : s.disk = .holds db) :
    ∃ entries, c.disk = .holds entries ∧ Kept X db entries := by
  have hdisk := hR.disk
  rw [hd] at hdisk
  generalize hc : c.disk = disk at hdisk
  cases hdisk with
  | holds hkept => exact ⟨_, rfl, hkept⟩

theorem existsIndex_there (hR : Catalogued s c) (hs : e.stat = true) : existsIndex e s = (.ok c.there, s) := by
  have hdisk := hR.disk
  unfold Catalogue.there
  cases hd : s.disk <;> cases hc : c.disk <;> rw [hd, hc] at hdisk <;>
    first | (cases hdisk; done) | simp [existsIndex, hs, hd]

include hX hK hR in
theorem search_looking (e : IndexEnv) {call : EngineCall} {clauses : List Clause} {n : Nat}
    (hcall : call.clauses = some (clauses, n)) : ∃ results, search e (built X clauses) n s = (.ok results, s) ∧
      c.Looking X.textTerms e.reads call (.ok (.results results)) c := by
  rcases search_apply_cases e s (built X clauses) n with ⟨h, hwhy⟩ | ⟨db, hr, hreads, h⟩
  · have hnothing : call.nothing = some (.results []) := by
      cases call <;> first | rfl | cases hcall
    exact ⟨[], h, .unread hnothing (hwhy.imp_left hR.shown_none)⟩
  · obtain ⟨entries, hshown, hkept⟩ := hR.shown hr
    have hlisted := listed_getMset hK hkept (built X clauses) n (hits_built hX hK db clauses)
    exact ⟨_, h, .found hcall hreads hshown hlisted⟩

include hX hK hE hR in
/-- A call of the engine, with whatever fails in it, is one on the catalogue. -/
theorem exec_looking (e : IndexEnv) (call : EngineCall) : ∃ c',
    c.Looking X.textTerms e.reads call (SearchEngine.exec e (call.query X) s).1 c' ∧
      Catalogued (SearchEngine.exec e (call.query X) s).2 c' := by
  have hbuilt : ∀ clauses n, call.clauses = some (clauses, n) →
      SearchEngine.exec e (call.query X) = Found.results <$> search e (built X clauses) n → ∃ c',
      c.Looking X.textTerms e.reads call (SearchEngine.exec e (call.query X) s).1 c' ∧
        Catalogued (SearchEngine.exec e (call.query X) s).2 c' := by
    intro clauses n hcall hexec
    obtain ⟨results, hsearch, hlooking⟩ := search_looking hX hK hR e hcall
    rw [hexec, Eff.map_apply, hsearch]
    exact ⟨c, hlooking, hR⟩
  cases call with
  | existsIndex =>
    rw [EngineCall.query, SearchEngine.exec, Eff.map_apply]
    cases hs : e.stat with
    | false =>
      have hexists : existsIndex e s = (.error .filesystem, s) := by simp [existsIndex, hs]
      rw [hexists]
      exact ⟨c, .unseen, hR⟩
    | true =>
      rw [existsIndex_there hR hs]
      exact ⟨c, .seen, hR⟩
  | «open» =>
    rw [EngineCall.query, SearchEngine.exec, Eff.map_apply]
    rcases engine_open_cases e s with h | ⟨db, hd, h⟩
    · rw [h]
      exact ⟨c, .unopened, hR⟩
    · rw [h]
      obtain ⟨entries, hc, hkept⟩ := hR.holds hd
      exact ⟨_, .opened hc, hR.disk, hR.attached, hR.settled, .some hkept⟩
  | close => exact ⟨_, .closed, hR.disk, hR.attached, hR.settled, .none⟩
  | search clauses n => exact hbuilt _ _ rfl rfl
  | searchByTag tag n => exact hbuilt _ _ rfl rfl
  | searchMetadata key value n => exact hbuilt _ _ rfl rfl
  | searchString queryString n =>
    rw [EngineCall.query, SearchEngine.exec, Eff.map_apply]
    rcases searchString_cases e s queryString n with h | ⟨q, h⟩
    · rw [h]
      refine ⟨c, ?_, hR⟩
      cases hr : s.reader with
      | none => exact .unread rfl (.inl (hR.shown_none hr))
      | some db =>
        obtain ⟨entries, hshown, -⟩ := hR.shown hr
        cases hreads : e.reads with
        | false => exact .unread rfl (.inr rfl)
        | true => exact .typed rfl hshown (listed_none entries n fun (_ : Entry) => not_false)
    · rw [h]
      rcases search_apply_cases e s q n with ⟨hsearch, hwhy⟩ | ⟨db, hr, hreads, hsearch⟩
      · rw [hsearch]
        exact ⟨c, .unread rfl (hwhy.imp_left hR.shown_none), hR⟩
      · rw [hsearch]
        obtain ⟨entries, hshown, hkept⟩ := hR.shown hr
        have hlisted := listed_getMset hK hkept q n fun _ => Iff.rfl
        exact ⟨c, .typed hreads hshown hlisted, hR⟩
  | suggest start n =>
    rw [EngineCall.query, SearchEngine.exec, Eff.map_apply]
    cases hr : s.reader with
    | none =>
      have hsuggest : suggest e start n s = (.ok [], s) := by simp [suggest, hr]
      rw [hsuggest]
      exact ⟨c, .unread rfl (.inl (hR.shown_none hr)), hR⟩
    | some db =>
      obtain ⟨entries, hshown, hkept⟩ := hR.shown hr
      rw [suggest_apply hr]
      cases hreads : e.reads with
      | false => exact ⟨c, .unread rfl (.inr rfl), hR⟩
      | true => exact ⟨c, .suggested rfl hshown (suggested_allTerms hE hkept start n), hR⟩

end Engine

/-! ## Histories -/

def IndexCall.exec (e : IndexEnv) : IndexCall → IndexAct X Found
  | .manager op => Found.bool <$> IndexManager.exec e op
  | .engine call => SearchEngine.exec e (call.query X)

/-- One call on an index, with whatever fails in it. -/
def Index.machine (X : Xapian) : Machine (IndexCall × Bool) (Except IndexFault Found) where
  State := Index X
  Step s call answer s' := ∃ e : IndexEnv, e.reads = call.2 ∧ call.1.exec e s = (answer, s')

theorem map_found (e : IndexEnv) (op : IndexOp) (s : Index X) : (IndexCall.manager op).exec e s =
    ((IndexManager.exec e op s).1.map Found.bool, (IndexManager.exec e op s).2) := by
  rw [IndexCall.exec, Eff.map_apply]
  rcases IndexManager.exec e op s with ⟨_ | _, s'⟩ <;> rfl

theorem catalogue_simulates (hX : X.Lawful) (hK : X.Ranks) (hE : X.Enumerates) :
    Machine.Simulates (fun _ => True) (Index.machine X) (Catalogue.machine X.textTerms) Catalogued := by
  rintro s c ⟨op | call, reads⟩ answer s' - hR ⟨e, rfl, hexec⟩
  · obtain ⟨c', hf, hR'⟩ := exec_filing hX hR e op
    obtain ⟨rfl, rfl⟩ := Prod.mk.inj ((map_found e op s).symm.trans hexec)
    exact ⟨c', ⟨_, rfl, hf⟩, hR'⟩
  · obtain ⟨c', hl, hR'⟩ := exec_looking hX hK hE hR e call
    rw [IndexCall.exec] at hexec
    rw [hexec] at hl hR'
    exact ⟨c', hl, hR'⟩

theorem exec_reads (e : IndexEnv) (reads : Bool) (op : IndexOp) :
    (IndexManager.exec { e with reads := reads } op : IndexAct X Bool) = IndexManager.exec e op := by
  have hadd : ∀ (entries : List Entry) (i : Nat),
      (addEntries { e with reads := reads } i entries : IndexAct X Unit) = addEntries e i entries := by
    intro entries
    induction entries with
    | nil => exact fun _ => rfl
    | cons entry entries ih =>
      intro i
      rw [addEntries, ih]
      rfl
  cases op with
  | rebuildIndex entries =>
    simp only [IndexManager.exec, rebuildIndex, hadd]
    rfl
  | create | «open» | close | clear | indexEntry | updateEntry | removeEntry => rfl

/-- What a call of the engine that is no search may answer on the catalogue, it does on the index, with some failures. -/
theorem looking_exec (hR : Catalogued s c) {terms : Bytes → List Bytes} {reads : Bool} {call : EngineCall}
    {answer : Except IndexFault Found} (hplain : call.nothing = none) (hl : c.Looking terms reads call answer c') :
    ∃ e s', e.reads = reads ∧ SearchEngine.exec e (call.query X) s = (answer, s') ∧ Catalogued s' c' := by
  cases hl with
  | seen =>
    refine ⟨{ IndexEnv.calm with reads := reads }, s, rfl, ?_, hR⟩
    rw [EngineCall.query, SearchEngine.exec, Eff.map_apply, existsIndex_there hR rfl]
  | unseen =>
    refine ⟨{ IndexEnv.calm with stat := false, reads := reads }, s, rfl, ?_, hR⟩
    simp [EngineCall.query, SearchEngine.exec, existsIndex]
  | @opened entries hc =>
    obtain ⟨db, hd, hkept⟩ : ∃ db, s.disk = .holds db ∧ Kept X db entries := by
      have hdisk := hR.disk
      rw [hc] at hdisk
      generalize hs : s.disk = disk at hdisk
      cases hdisk with
      | holds hkept => exact ⟨_, rfl, hkept⟩
    refine ⟨{ IndexEnv.calm with reads := reads }, { s with reader := some db }, rfl, ?_,
      hR.disk, hR.attached, hR.settled, .some hkept⟩
    simp [EngineCall.query, SearchEngine.exec, SearchEngine.open, orFalse, Eff.catching_apply, hd, IndexEnv.calm]
  | unopened =>
    refine ⟨{ IndexEnv.calm with opens := false, reads := reads }, s, rfl, ?_, hR⟩
    rw [EngineCall.query, SearchEngine.exec, Eff.map_apply]
    rcases engine_open_cases { IndexEnv.calm with opens := false, reads := reads } s with h | ⟨db, hd, h⟩
    · rw [h]
    · simp [SearchEngine.open, orFalse, Eff.catching_apply, hd, IndexFault.isXapian]
  | closed => exact ⟨{ IndexEnv.calm with reads := reads }, _, rfl, rfl, hR.disk, hR.attached, hR.settled, .none⟩
  | unread hcall =>
    rw [hplain] at hcall
    cases hcall
  | found hcall => cases call <;> first | (cases hcall; done) | cases hplain
  | typed | suggested => cases hplain

theorem catalogue_simulated (hX : X.Lawful) : Machine.Simulates (fun call => call.1.Plain)
    (Catalogue.machine X.textTerms) (Index.machine X) fun c s => Catalogued s c := by
  rintro c s ⟨op | call, reads⟩ answer c' hplain hR hstep
  · obtain ⟨done, rfl, hf⟩ := hstep
    obtain ⟨e, s', hexec, hR'⟩ := filing_exec hX hR hf
    refine ⟨s', ⟨{ e with reads := reads }, rfl, ?_⟩, hR'⟩
    refine (map_found _ op s).trans ?_
    rw [exec_reads, hexec]
  · obtain ⟨e, s', hreads, hexec, hR'⟩ := looking_exec hR hplain hstep
    exact ⟨s', ⟨e, hreads, hexec⟩, hR'⟩

/-- Whatever fails, what is answered over a history of calls on a new index is what a new catalogue may answer. -/
theorem catalogue_run (hX : X.Lawful) (hK : X.Ranks) (hE : X.Enumerates)
    {history : List ((IndexCall × Bool) × Except IndexFault Found)} {s : Index X}
    (hrun : (Index.machine X).Runs (Index.fresh X) history s) :
    ∃ c, (Catalogue.machine X.textTerms).Runs .fresh history c ∧ Catalogued s c :=
  (catalogue_simulates hX hK hE).runs (fun _ _ => trivial) (Catalogued.fresh X) hrun

/-- Without searches, the histories of an index are exactly those of a catalogue. -/
theorem catalogue_realised (hX : X.Lawful) (hK : X.Ranks) (hE : X.Enumerates)
    {history : List ((IndexCall × Bool) × Except IndexFault Found)} (hplain : ∀ p ∈ history, p.1.1.Plain) :
    (∃ s, (Index.machine X).Runs (Index.fresh X) history s) ↔ ∃ c, (Catalogue.machine X.textTerms).Runs .fresh history c := by
  constructor
  · rintro ⟨s, hrun⟩
    obtain ⟨c, hc, -⟩ := catalogue_run hX hK hE hrun
    exact ⟨c, hc⟩
  · rintro ⟨c, hrun⟩
    obtain ⟨s, hs, -⟩ := (catalogue_simulated hX).runs hplain (Catalogued.fresh X) hrun
    exact ⟨s, hs⟩

theorem toyXapian_ranks : toyXapian.Ranks where
  ranked db q := by
    refine ⟨_, List.Perm.refl _, fun n => ?_⟩
    change ((((db : List Document).filter fun doc => q (toyCarries doc)).take n).map fun doc => (doc, 100)).map Prod.fst = _
    rw [List.map_map]
    exact List.map_id _
  hits_blank _ _ _ _ := rfl

def Index.record (s : Index X) : List (IndexEnv × IndexCall) → List ((IndexCall × Bool) × Except IndexFault Found) × Index X
  | [] => ([], s)
  | (e, call) :: calls =>
    let (answer, s') := call.exec e s
    let (history, last) := record s' calls
    (((call, e.reads), answer) :: history, last)

theorem Index.record_runs (s : Index X) (calls : List (IndexEnv × IndexCall)) :
    (Index.machine X).Runs s (s.record calls).1 (s.record calls).2 := by
  induction calls generalizing s with
  | nil => exact Machine.Runs.nil (M := Index.machine X) s
  | cons p calls ih => exact .cons ⟨p.1, rfl, rfl⟩ (ih (p.2.exec p.1 s).2)

/-- A call that the library commits on its own, and then cannot. -/
def IndexEnv.unlucky : IndexEnv := { IndexEnv.calm with flushes := fun _ => true, commits := false }

/-- Two entries, one of them not acknowledged, and a search for both. -/
def sampleCalls : List (IndexEnv × IndexCall) :=
  [(.calm, .manager .open), (.calm, .manager (.updateEntry githubEntry)), (.unlucky, .manager (.indexEntry gmailEntry)),
    (.calm, .engine .open), (.calm, .engine (.search [.addTerm (ascii "account")] 10))]

def Found.ids : Found → List Bytes
  | .results l => l.map SearchResult.entryId
  | _ => []

example : ((Index.fresh toyXapian).record sampleCalls).1.map (fun p => p.2.map Found.ids) =
    [.ok [], .ok [], .ok [], .ok [], .ok [ascii "entry-1", ascii "entry-2"]] := by decide +kernel

theorem catalogue_run_sample : ∃ c, (Catalogue.machine toyXapian.textTerms).Runs .fresh
    ((Index.fresh toyXapian).record sampleCalls).1 c ∧ Catalogued ((Index.fresh toyXapian).record sampleCalls).2 c :=
  catalogue_run toyXapian_lawful toyXapian_ranks toyXapian_enumerates (Index.record_runs _ _)

/-- A rebuild that stops behind the first entry. -/
def stoppedHistory : List ((IndexCall × Bool) × Except IndexFault Found) :=
  [((.manager .open, true), .ok (.bool true)),
    ((.manager (.rebuildIndex [githubEntry, gmailEntry]), true), .ok (.bool false)),
    ((.engine .open, true), .ok (.bool true))]

theorem catalogue_realised_stopped : ∃ s, (Index.machine toyXapian).Runs (Index.fresh toyXapian) stoppedHistory s := by
  have hplain : ∀ p ∈ stoppedHistory, p.1.1.Plain := by
    intro p hp
    simp only [stoppedHistory, List.mem_cons, List.not_mem_nil, or_false] at hp
    rcases hp with rfl | rfl | rfl
    · trivial
    · trivial
    · rfl
  let first : Multiset Entry := ([githubEntry] : List Entry)
  have hlast : (Catalogue.machine toyXapian.textTerms).Runs .fresh stoppedHistory
      { (Catalogue.fresh.settle 0).settle first with shown := some first } := by
    refine .cons ⟨.ok true, rfl, .opened rfl nofun⟩ (.cons ⟨.ok false, rfl, .stopped [githubEntry, gmailEntry] 1 (by decide)⟩ ?_)
    exact .cons (.opened rfl) (.nil _)
  exact (catalogue_realised toyXapian_lawful toyXapian_ranks toyXapian_enumerates hplain).mpr ⟨_, hlast⟩

/-! ## What was acknowledged is found -/

open scoped Classical in
theorem Listed.ids {entries : Multiset Entry} {P : Entry → Prop} {n : Nat} {results : List SearchResult}
    (h : Listed entries P n results) (hn : entries.card ≤ n) :
    (results.map SearchResult.entryId : Multiset Bytes) = (entries.filter P).map Entry.id := by
  obtain ⟨ranked, hranked, hshown⟩ := h
  have hlen : ranked.length ≤ n := by
    rw [← Multiset.coe_card, hranked]
    exact (Multiset.card_le_card (Multiset.filter_le P entries)).trans hn
  rw [List.take_of_length_le hlen] at hshown
  have hids := congrArg (List.map Prod.fst) hshown
  rw [List.map_map, List.map_map] at hids
  rw [← hranked, Multiset.map_coe]
  exact congrArg _ hids

end Passdoq
