import Passdoq.Index.Manager

/-!
# Rebuilds that fail

`rebuild_index` clears the index first and adds the entries then. A document that the library does not accept ends the loop, and
the library drops what it has not committed.

* `flushed e n` : how many of the first `n` documents the library has committed on its own;
* `Rejects e entries j` : the `j`-th entry is the first that cannot be indexed;
* `rebuildIndex_rejected` : what such a rebuild leaves.
-/

namespace Passdoq

open IndexManager

variable {X : Xapian} {e e₁ e₂ : IndexEnv} {s s₁ s₂ s₃ : Index X} {db : X.Db} {entries : List Entry} {j : Nat}

/-- How many of the first `n` documents of a call the library has committed on its own. -/
def flushed (e : IndexEnv) : Nat → Nat
  | 0 => 0
  | n + 1 => if e.flushes n then n + 1 else flushed e n

/-- The `j`-th entry cannot be indexed, and those before it can. -/
structure Rejects (e : IndexEnv) (entries : List Entry) (j : Nat) : Prop where
  within : j < entries.length
  rejected : e.accepts j = false
  accepted : ∀ i < j, e.accepts i = true

theorem flushed_le (e : IndexEnv) (n : Nat) : flushed e n ≤ n := by
  induction n with
  | zero => exact le_refl 0
  | succ n ih =>
    unfold flushed
    split_ifs
    · exact le_refl _
    · omega

theorem flushed_of_never (h : ∀ i, e.flushes i = false) (n : Nat) : flushed e n = 0 := by
  induction n with
  | zero => rfl
  | succ n ih =>
    unfold flushed
    rw [h n, if_neg Bool.false_ne_true, ih]

theorem addEntries_append (e : IndexEnv) (i : Nat) (entries more : List Entry) :
    (addEntries e i (entries ++ more) : IndexAct X Unit) =
      addEntries e i entries >>= fun _ => addEntries e (i + entries.length) more := by
  induction entries generalizing i with
  | nil => rfl
  | cons entry entries ih =>
    show (_ >>= fun _ => addEntries e (i + 1) (entries ++ more)) = (_ >>= fun _ => addEntries e (i + 1) entries) >>= _
    rw [ih, Eff.bind_bind, List.length_cons, Nat.add_assoc, Nat.add_comm 1]

/-- Entries that can be indexed are added; what the library has committed of them is on the disk. -/
theorem addEntries_accepted (h : ∀ i < entries.length, e.accepts i = true) (s : Index X) (db : X.Db) :
    addEntries e 0 entries (s.settle db) =
      (.ok (), { s with
        disk := .holds (addAll X db (entries.take (flushed e entries.length)))
        writer := some (addAll X db entries) }) := by
  induction entries using List.reverseRecOn with
  | nil => rfl
  | append_singleton entries entry ih =>
    have hbefore : ∀ i < entries.length, e.accepts i = true := by
      intro i hi
      apply h
      rw [List.length_append]
      exact Nat.lt_add_right 1 hi
    have hlast : e.accepts entries.length = true := h _ (by simp)
    have hall : X.addDocument (addAll X db entries) (entryToDocument entry) = addAll X db (entries ++ [entry]) := by
      simp [addAll]
    have hflushed : flushed e (entries ++ [entry]).length =
        if e.flushes entries.length then entries.length + 1 else flushed e entries.length := by
      rw [List.length_append]
      rfl
    rw [addEntries_append, Eff.bind_apply, ih hbefore]
    simp only [addEntries, change, Eff.bind_apply, Eff.get_apply, Nat.zero_add, hlast, if_true, Eff.modify_apply,
      Eff.pure_apply, hall, hflushed]
    split_ifs with hflush
    · rw [List.take_of_length_le (by simp)]
    · rw [List.take_append_of_le_length (flushed_le e _)]

/-- A rebuild that cannot index an entry leaves what the library had committed before it of the new entries. -/
theorem rebuildIndex_rejected (hX : X.Lawful) (hclear : clear e s = (.ok true, s₁)) (hrejects : Rejects e entries j) :
    rebuildIndex e entries s = (.ok false, s.settle (addAll X X.empty (entries.take (flushed e j)))) := by
  obtain rfl := clear_true hclear
  obtain ⟨entry, rest, hsplit⟩ : ∃ entry rest, entries.drop j = entry :: rest := by
    rw [← List.ne_nil_iff_exists_cons, ne_eq, List.drop_eq_nil_iff]
    have := hrejects.within
    omega
  have hlength : (entries.take j).length = j := List.length_take_of_le hrejects.within.le
  have hsplit : entries = entries.take j ++ entry :: rest := by rw [← hsplit, List.take_append_drop]
  have haccepted : ∀ i < (entries.take j).length, e.accepts i = true := by
    rw [hlength]
    exact hrejects.accepted
  have hadded := addEntries_accepted haccepted s X.empty
  have htake : (entries.take j).take (flushed e j) = entries.take (flushed e j) := by
    rw [List.take_take, Nat.min_eq_left (flushed_le e j)]
  rw [hlength, htake] at hadded
  -- the loop ends at the entry, and its changes are dropped
  have hloop : addEntries e 0 entries (s.settle X.empty) =
      (.error .xapian, s.settle (addAll X X.empty (entries.take (flushed e j)))) := by
    rw [hsplit, addEntries_append, Eff.bind_apply, hlength, ← hsplit, hadded]
    simp [addEntries, change, hrejects.rejected, setWriter, hX.afterError_committed, Index.stored, Index.settle]
  unfold rebuildIndex
  rw [Eff.bind_apply, hclear]
  simp [orFalse, Eff.catching_apply, hloop, IndexFault.isXapian]

/-- Both indexes are open, on the same documents. -/
def SameDocuments (s s' : Index X) : Prop :=
  ∃ before after, s.writer = some before ∧ s'.writer = some after ∧ (X.docs after).Perm (X.docs before)

/-- After a rebuild that could not index an entry, a close and an open leave the documents that the open index had before
exactly when these are the documents of the entries that the library had committed before that entry. -/
theorem rebuild_keeps_iff (hX : X.Lawful) (hw : s.writer = some db) (hclear : clear e s = (.ok true, s₁))
    (hrejects : Rejects e entries j) (hclose : close e₁ (rebuildIndex e entries s).2 = (.ok (), s₂))
    (hopen : IndexManager.open e₂ s₂ = (.ok true, s₃)) :
    ((rebuildIndex e entries s).1 = .ok false ∧ SameDocuments s s₃) ↔
      (X.docs db).Perm ((entries.take (flushed e j)).map entryToDocument) := by
  have hrebuild := rebuildIndex_rejected hX hclear hrejects
  rw [hrebuild] at hclose
  have hclosed := close_ok hclose fun db hdb => congrArg Disk.holds (Option.some.inj hdb)
  have hopened := open_true hopen
  have hafter : s₃.writer = some (addAll X X.empty (entries.take (flushed e j))) := by
    rw [hopened, hclosed]
    rfl
  have hdocs := addAll_docs hX X.empty (entries.take (flushed e j))
  rw [hX.docs_empty, List.nil_append] at hdocs
  unfold SameDocuments
  rw [hrebuild, hafter, hw]
  constructor
  · rintro ⟨-, before, after, hbefore, hafter, hperm⟩
    obtain rfl := Option.some.inj hbefore
    obtain rfl := Option.some.inj hafter
    exact hperm.symm.trans hdocs
  · intro hperm
    exact ⟨rfl, db, _, rfl, rfl, hdocs.trans hperm.symm⟩

/-- Without commits of its own the library leaves nothing. -/
theorem rebuild_leaves_none (hX : X.Lawful) (hclear : clear e s = (.ok true, s₁)) (hrejects : Rejects e entries j)
    (hnever : ∀ i, e.flushes i = false) : X.docs (rebuildIndex e entries s).2.stored = [] := by
  rw [rebuildIndex_rejected hX hclear hrejects, flushed_of_never hnever]
  exact hX.docs_empty

/-- An open index of one entry. -/
def openIndex : Index toyXapian := ⟨.holds [entryToDocument githubEntry], some [entryToDocument githubEntry], none⟩

/-- The second document cannot be indexed; the library may have committed the first. -/
def rejectsSecond (flushes : Nat → Bool) : IndexEnv := { IndexEnv.calm with accepts := fun i => i == 0, flushes := flushes }

theorem rejects_rejectsSecond (flushes : Nat → Bool) : Rejects (rejectsSecond flushes) [githubEntry, gmailEntry] 1 where
  within := by decide
  rejected := rfl
  accepted := by
    intro i hi
    rw [Nat.lt_one_iff.mp hi]
    rfl

theorem clear_openIndex (flushes : Nat → Bool) :
    clear (rejectsSecond flushes) openIndex = (.ok true, openIndex.settle []) := rfl

/-- Rebuilt from two entries of which the library has committed the first, the index is the same again. -/
theorem rebuild_keeps_committed : ∃ s₁ s₂ s₃ : Index toyXapian,
    rebuildIndex (rejectsSecond fun i => i == 0) [githubEntry, gmailEntry] openIndex = (.ok false, s₁) ∧
    close .calm s₁ = (.ok (), s₂) ∧ IndexManager.open .calm s₂ = (.ok true, s₃) ∧ SameDocuments openIndex s₃ := by
  have hclose : close .calm (rebuildIndex (rejectsSecond fun i => i == 0) [githubEntry, gmailEntry] openIndex).2 =
      (.ok (), { openIndex with writer := none }) := rfl
  have hopen : IndexManager.open .calm { openIndex with writer := none } = (.ok true, openIndex) := rfl
  have hkeeps := rebuild_keeps_iff toyXapian_lawful rfl (clear_openIndex fun i => i == 0)
    (rejects_rejectsSecond fun i => i == 0) hclose hopen
  exact ⟨_, _, _, rfl, hclose, hopen, (hkeeps.mpr (.refl _)).2⟩

/-- Rebuilt from the same two entries without such a commit, the index is empty. -/
theorem not_rebuild_keeps : ∃ s₁ s₂ s₃ : Index toyXapian,
    rebuildIndex (rejectsSecond fun _ => false) [githubEntry, gmailEntry] openIndex = (.ok false, s₁) ∧
    close .calm s₁ = (.ok (), s₂) ∧ IndexManager.open .calm s₂ = (.ok true, s₃) ∧ ¬ SameDocuments openIndex s₃ := by
  refine ⟨_, _, _, rfl, rfl, rfl, ?_⟩
  rintro ⟨before, after, hbefore, hafter, hperm⟩
  obtain rfl := Option.some.inj hbefore
  obtain rfl := Option.some.inj hafter
  cases hperm.length_eq

end Passdoq
