import Passdoq.Vault.Client
import Passdoq.Vault.Secrecy

/-!
# Notebooks with their secrets veiled

* `Shelf.veil` : a shelf as it is seen when secrets are seen through `g`;
* `Medium.Blind` : the medium takes notebooks as they look; `vaultMedium_blind` : the files of a vault do, as far as lengths
  of secrets are seen;
* `Shelf.call_veil` : what is seen of a call is the call on what is seen.
-/

namespace Passdoq
open Msgpack Crypto Vault

variable (g : Bytes → Bytes)

def Desk.veil : Desk → Desk
  | .unlocked path clasp es => .unlocked path clasp (veiled g es)
  | desk => desk

def Notebook.veil (nb : Notebook) : Notebook := { nb with entries := veiled g nb.entries }

def Shelf.veil (t : Shelf) : Shelf := ⟨t.desk.veil g, fun path => (t.notebooks path).map (Notebook.veil g)⟩

/-- A notebook takes as much room as it seems to. -/
def Medium.Blind (M : Medium) : Prop := ∀ nonce clasp es, M.size nonce clasp (veiled g es) = M.size nonce clasp es

/-- What a call returns, as a reply. -/
def Op.reply : (op : Op) → op.Result → Reply
  | .lock, _ => .unit
  | .addEntry _, id => .id id
  | .getEntry _, entry => .entry entry
  | .listEntries, entries | .search _, entries | .searchByTag _, entries => .entries entries
  | .create _ _, b | .open _, b | .unlock _, b | .load, b | .save, b | .rekey _, b | .updateEntry _ _, b
  | .deleteEntry _, b => .bool b

/-- What is seen of a reply. -/
def Op.seen (op : Op) (r : Except Exn op.Result) : Except Exn Reply := r.map fun x => (op.reply x).veil g

variable {g} {M : Medium} {e : Env} {t : Shelf} {op : Op}

theorem Desk.state_veil (d : Desk) : (d.veil g).state = d.state := by
  cases d <;> rfl

theorem Desk.path_veil (d : Desk) : (d.veil g).path = d.path := by
  cases d <;> rfl

namespace Shelf

theorem found_veil (t : Shelf) (path : Bytes) : (t.veil g).found e path = (t.found e path).map (Notebook.veil g) := by
  unfold found
  split_ifs <;> rfl

theorem update_veil (notebooks : Bytes → Option Notebook) (path : Bytes) (nb : Option Notebook) :
    (fun p => (Function.update notebooks path nb p).map (Notebook.veil g)) =
      Function.update (fun p => (notebooks p).map (Notebook.veil g)) path (nb.map (Notebook.veil g)) := by
  funext p
  by_cases hp : p = path
  · subst hp
    simp
  · simp [hp]

theorem save_veil (hM : M.Blind g) (t : Shelf) :
    (t.veil g).save M e = ((t.save M e).1, (t.save M e).2.veil g) := by
  obtain ⟨desk, notebooks⟩ := t
  cases desk with
  | closed | locked => rfl
  | unlocked path clasp es =>
    have hsize := hM e.nonce clasp es
    unfold save
    dsimp only [Shelf.veil, Desk.veil]
    rw [hsize]
    cases M.size e.nonce clasp es with
    | none => rfl
    | some n =>
      cases e.write with
      | refused => rfl
      | short k good =>
        dsimp only
        rw [update_veil]
        split_ifs <;> simp [Notebook.veil, veiled_reloaded]
      | full good =>
        dsimp only
        rw [update_veil]
        simp [Notebook.veil, veiled_reloaded]

theorem load_veil (t : Shelf) : (t.veil g).load e = (t.load e).map fun r => (r.1, r.2.veil g) := by
  unfold load
  rw [found_veil]
  have hpath : (t.veil g).desk.path = t.desk.path := Desk.path_veil t.desk
  rw [hpath]
  obtain ⟨desk, notebooks⟩ := t
  cases found e ⟨desk, notebooks⟩ desk.path with
  | none => rfl
  | some nb =>
    cases desk with
    | closed | locked => rfl
    | unlocked path clasp es =>
      dsimp only [Shelf.veil, Desk.veil, Notebook.veil, Option.map_some]
      split_ifs <;> rfl

theorem create_veil (hM : M.Blind g) (t : Shelf) (path passphrase : Bytes) :
    (t.veil g).create M e path passphrase = ((t.create M e path passphrase).1, (t.create M e path passphrase).2.veil g) := by
  obtain ⟨desk, notebooks⟩ := t
  cases desk with
  | locked | unlocked => rfl
  | closed path₀ =>
    unfold create
    dsimp only [Shelf.veil, Desk.veil]
    split_ifs
    · have hsave := save_veil (e := e) hM ⟨.unlocked path ⟨passphrase, e.salt, e.dataKey, e.keyNonce⟩ ∅, notebooks⟩
      exact congrArg (fun r : Bool × Shelf => ((.ok r.1 : Except Exn Bool), r.2)) hsave
    · rfl

theorem open_veil (t : Shelf) (path : Bytes) :
    (t.veil g).open e path = ((t.open e path).1, (t.open e path).2.veil g) := by
  unfold Shelf.open
  rw [found_veil]
  obtain ⟨desk, notebooks⟩ := t
  cases desk with
  | locked | unlocked => rfl
  | closed path₀ => cases found e ⟨.closed path₀, notebooks⟩ path <;> rfl

theorem unlock_veil (t : Shelf) (passphrase : Bytes) :
    (t.veil g).unlock M e passphrase = (t.unlock M e passphrase).map fun r => (r.1, r.2.veil g) := by
  obtain ⟨desk, notebooks⟩ := t
  cases desk with
  | closed | unlocked => rfl
  | locked path clasp =>
    have hload := load_veil (g := g) (e := e) ⟨.unlocked path clasp ∅, notebooks⟩
    unfold unlock
    dsimp only [Shelf.veil, Desk.veil]
    split_ifs
    · refine (congrArg (Option.map fun r : Bool × Shelf => ((.ok r.1 : Except Exn Bool), r.2)) hload).trans ?_
      rw [Option.map_map, Option.map_map]
      rfl
    · rfl
    · rfl

theorem rekey_veil (hM : M.Blind g) (t : Shelf) (newDataKey : Bytes) :
    (t.veil g).rekey M e newDataKey = ((t.rekey M e newDataKey).1, (t.rekey M e newDataKey).2.veil g) := by
  obtain ⟨desk, notebooks⟩ := t
  cases desk with
  | closed | locked => rfl
  | unlocked path clasp es =>
    unfold rekey
    dsimp only [Shelf.veil, Desk.veil]
    split_ifs with hlen
    · have hsave := save_veil (e := e) hM
        ⟨.unlocked path { clasp with dataKey := ⟨newDataKey, hlen⟩, keyNonce := e.keyNonce } es, notebooks⟩
      refine (congrArg (fun r : Bool × Shelf => ((.ok r.1 : Except Exn Bool), r.2)) hsave).trans rfl
    · rfl

theorem lock_veil (t : Shelf) : (t.veil g).lock = t.lock.veil g := by
  obtain ⟨desk, notebooks⟩ := t
  cases desk <;> rfl

/-- An operation on the entries that does on veiled entries what is seen of it. -/
theorem onEntries_veil {α β : Type} (t : Shelf) {f : OrdMap Bytes Entry → Except Exn α × OrdMap Bytes Entry}
    {f' : OrdMap Bytes Entry → Except Exn β × OrdMap Bytes Entry} {reply : α → Reply} {reply' : β → Reply}
    (hf : ∀ es, (f' (veiled g es)).1.map reply' = (f es).1.map reply ∧ (f' (veiled g es)).2 = veiled g (f es).2) :
    (((t.veil g).onEntries f').1.map reply', ((t.veil g).onEntries f').2) =
      ((t.onEntries f).1.map reply, (t.onEntries f).2.veil g) := by
  obtain ⟨desk, notebooks⟩ := t
  cases desk with
  | closed | locked => rfl
  | unlocked path clasp es =>
    obtain ⟨hreply, hes⟩ := hf es
    unfold onEntries
    dsimp only [Shelf.veil, Desk.veil]
    rw [hreply, hes]

end Shelf

/-- What is seen of a call is the call on what is seen. -/
theorem Shelf.call_veil (hM : M.Blind g) (e : Env) (t : Shelf) (op : Op) :
    ((t.veil g).call M e (op.veil g)).map (fun r => (r.1.map (op.veil g).reply, r.2)) =
      (t.call M e op).map fun r => (op.seen g r.1, r.2.veil g) := by
  cases op with
  | create path passphrase =>
    change some (((t.veil g).create M e path passphrase).1.map Reply.bool, ((t.veil g).create M e path passphrase).2) = _
    rw [create_veil hM]
    rfl
  | «open» path =>
    change some ((.ok (Reply.bool ((t.veil g).open e path).1) : Except Exn Reply), ((t.veil g).open e path).2) = _
    rw [open_veil]
    rfl
  | unlock passphrase =>
    change ((t.veil g).unlock M e passphrase).map (fun r => (r.1.map Reply.bool, r.2)) = _
    rw [unlock_veil, Option.map_map]
    rfl
  | lock =>
    change some ((.ok Reply.unit : Except Exn Reply), (t.veil g).lock) = _
    rw [lock_veil]
    rfl
  | load =>
    have hmap : ∀ x : Option (Bool × Shelf),
        ((x.map fun r => (r.1, r.2.veil g)).map fun r => ((.ok r.1 : Except Exn Bool), r.2)).map
          (fun r => (r.1.map Reply.bool, r.2)) =
        (x.map fun r => ((.ok r.1 : Except Exn Bool), r.2)).map fun r => (Op.seen g .load r.1, r.2.veil g) := by
      intro x
      cases x <;> rfl
    change (((t.veil g).load e).map fun r => ((.ok r.1 : Except Exn Bool), r.2)).map (fun r => (r.1.map Reply.bool, r.2)) = _
    rw [load_veil]
    exact hmap (t.load e)
  | save =>
    change some ((.ok (Reply.bool ((t.veil g).save M e).1) : Except Exn Reply), ((t.veil g).save M e).2) = _
    rw [save_veil hM]
    rfl
  | rekey newDataKey =>
    change some (((t.veil g).rekey M e newDataKey).1.map Reply.bool, ((t.veil g).rekey M e newDataKey).2) = _
    rw [rekey_veil hM]
    rfl
  | addEntry entry =>
    refine congrArg some (onEntries_veil t fun es => ⟨rfl, ?_⟩)
    simp only [veiled, OrdMap.mapVal_insert]
    rfl
  | updateEntry id entry =>
    refine congrArg some (onEntries_veil t fun es => ?_)
    simp only [veiled, OrdMap.find?_mapVal]
    cases es.find? id with
    | none => exact ⟨rfl, rfl⟩
    | some old =>
      refine ⟨rfl, ?_⟩
      simp only [Option.map_some, OrdMap.mapVal_insert]
      rfl
  | deleteEntry id =>
    refine congrArg some (onEntries_veil t fun es => ?_)
    simp only [veiled, OrdMap.find?_mapVal, OrdMap.mapVal_erase, Option.isSome_map]
    constructor
    · rfl
    · trivial
  | getEntry id =>
    refine congrArg some (onEntries_veil t fun es => ?_)
    simp only [veiled, OrdMap.find?_mapVal]
    cases es.find? id <;> exact ⟨rfl, rfl⟩
  | listEntries =>
    refine congrArg some (onEntries_veil t fun es => ⟨?_, rfl⟩)
    simp only [entries_veiled]
    rfl
  | search query =>
    refine congrArg some (onEntries_veil t fun es => ⟨?_, rfl⟩)
    simp only [entries_veiled, List.filter_map]
    rfl
  | searchByTag tag =>
    refine congrArg some (onEntries_veil t fun es => ⟨?_, rfl⟩)
    simp only [entries_veiled, List.filter_map]
    rfl

/-- Calls that look the same, on shelves that do, come to ends that do. -/
theorem Shelf.call_twins (hM : M.Blind g) {t t' t₁ : Shelf} {op op' : Op} {a : Except Exn op.Result} (ht : t.veil g = t'.veil g)
    (hop : op.veil g = op'.veil g) (hc : t.call M e op = some (a, t₁)) :
    ∃ a' t₁', t'.call M e op' = some (a', t₁') ∧ op.seen g a = op'.seen g a' ∧ t₁.veil g = t₁'.veil g := by
  have hleft := Shelf.call_veil hM e t op
  have hright := Shelf.call_veil hM e t' op'
  rw [ht, hop, hright, hc] at hleft
  obtain ⟨⟨a', t₁'⟩, hc', hseen⟩ := Option.map_eq_some_iff.mp hleft
  obtain ⟨hanswer, hshelf⟩ := Prod.mk.inj hseen
  exact ⟨a', t₁', hc', hanswer.symm, hshelf.symm⟩

theorem Shelf.state_twins {t t' : Shelf} (ht : t.veil g = t'.veil g) : t.desk.state = t'.desk.state := by
  rw [← Desk.state_veil (g := g), ← Desk.state_veil (g := g) t'.desk]
  exact congrArg (fun t : Shelf => t.desk.state) ht

/-- Files have the lengths that they have with secrets of the same lengths. -/
theorem vaultMedium_blind {S : Sodium} {F : Format} (hS : S.Correct) : (vaultMedium S F).Blind lengths := by
  intro nonce clasp es
  have hlengths : ∀ secret, lengths (lengths secret) = lengths secret := by
    intro secret
    simp [lengths]
  have htwice : veiled lengths (veiled lengths es) = veiled lengths es := by
    unfold veiled
    rw [OrdMap.mapVal_mapVal]
    congr 1
    funext entry
    simp [Entry.veil, hlengths]
  have halike : Vault.Alike lengths (clasp.vault S [] (veiled lengths es)) (clasp.vault S [] es) :=
    ⟨rfl, rfl, rfl, rfl, rfl, htwice⟩
  have hlen := fileBytes_sameLength (F := F) hS halike nonce
  change (Vault.fileBytes S F nonce _).toOption.map List.length = (Vault.fileBytes S F nonce _).toOption.map List.length
  revert hlen
  generalize Vault.fileBytes S F nonce (clasp.vault S [] (veiled lengths es)) = x
  generalize Vault.fileBytes S F nonce (clasp.vault S [] es) = y
  intro hlen
  cases hlen with
  | ok h => exact congrArg some h
  | error => rfl

end Passdoq
