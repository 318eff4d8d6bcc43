import Retarget.Proofs.Bisimulation
import Retarget.Proofs.Replay.Counts
import Retarget.Proofs.Replay.Suffix
import Retarget.Proofs.Store.Heights

/-!
# Replay with shifted times

If the same number of seconds is added to all times of a file, all its headers get other hashes,
and so other parents. Still the two replays go the same way to the end. After as many entries the
headers at one height of the two stores are of one entry and its shifted copy, so that the stores
are related by a bisimulation; the next entry meets the same fate in both, be it growth, rejection
or error. No verdict depends on a time but through a difference, and none on a hash.

The first header stands above height zero when earlier headers are unknown. Walks then come to its
missing parent, whose hash is zero in both replays, so that even this error has one text.
-/

namespace Retarget.Replay

def Entry.shift (d : Int) (e : Entry) : Entry :=
  { e with time := UInt32.ofNat (e.time.toNat + d).toNat }

def File.shift (d : Int) (f : File) : File := { f with entries := f.entries.map (Entry.shift d) }

def File.Shiftable (f : File) (d : Int) : Prop :=
  ∀ e ∈ f.entries, 0 ≤ (e.time.toNat : Int) + d ∧ (e.time.toNat : Int) + d ≤ 0xffffffff

instance (f : File) (d : Int) : Decidable (f.Shiftable d) :=
  inferInstanceAs (Decidable (∀ e ∈ f.entries, _ ∧ _))

variable {c : Consensus} {f : File} {d : Int} {e : Entry} {p q : Progress}
  {root x y : IndexedHeader} {i t : Nat}

/-! ### Shifted files -/

@[simp] theorem File.height_shift (f : File) : (f.shift d).height = f.height := rfl

@[simp] theorem File.length_shift (f : File) :
    (f.shift d).entries.length = f.entries.length := List.length_map _

theorem File.getElem?_shift (he : f.entries[i]? = some e) :
    (f.shift d).entries[i]? = some (e.shift d) := by
  rw [shift, List.getElem?_map, he]
  rfl

theorem Entry.header_shift (e : Entry) (parent parent' : Hash) (height : UInt32) :
    Corresponds (fun h h' => h.parent = parent ∧ h'.parent = parent' ∧ h.kind = h'.kind ∧
      h.bits = h'.bits) (e.header parent height) ((e.shift d).header parent' height) := by
  cases parsed : Compact.parse e.bits with
  | error fault =>
      rw [header, header, shift, parsed]
      exact .error _
  | ok bits =>
      obtain ⟨h, header, hparent, hkind, hbits⟩ := exists_header parsed parent height
      obtain ⟨h', header', hparent', hkind', hbits'⟩ :=
        exists_header (e := e.shift d) parsed parent' height
      rw [header, header']
      exact .ok ⟨hparent, hparent', hkind.trans hkind'.symm, hbits.trans hbits'.symm⟩

theorem Entry.Describes.shifted (hx : e.Describes x) (hy : (e.shift d).Describes y)
    (height : x.height = y.height) (range : 0 ≤ (e.time.toNat : Int) + d)
    (range' : (e.time.toNat : Int) + d ≤ 0xffffffff) : x.Shifted d y where
  height := height
  kind := hx.kind.trans hy.kind.symm
  bits := Except.ok.inj (hx.bits.symm.trans hy.bits)
  time := by
    have hsum : ((e.time.toNat : Int) + d).toNat < 2 ^ 32 := by omega
    rw [hy.time, hx.time, shift, UInt32.toNat_ofNat_of_lt' hsum, Int.toNat_of_nonneg range]

/-- The kinds of the entries are not shifted, so a summary covers as many entries of the file. -/
theorem Summary.Covers.of_shift {s : Summary} {n : Nat} (covers : s.Covers (f.shift d) n) :
    s.Covers f n := by
  have hcount : ∀ kind : Kind, ((f.shift d).entries.take n).countP (·.kind = kind) =
      (f.entries.take n).countP (·.kind = kind) := by
    intro kind
    rw [File.shift, ← List.map_take, List.countP_map]
    rfl
  exact ⟨covers.accepted, covers.work.trans (hcount .work), covers.stake.trans (hcount .stake)⟩

/-- What a summary covers leaves open only its rejection. -/
theorem Summary.Covers.unique {s s' : Summary} {n : Nat} (covers : s.Covers f n)
    (covers' : s'.Covers f n) (hrejected : s.rejected = s'.rejected) : s = s' := by
  obtain ⟨accepted, work, stake, rejected⟩ := s
  obtain ⟨haccepted, hwork, hstake⟩ := covers
  obtain ⟨haccepted', hwork', hstake'⟩ := covers'
  simp only at haccepted hwork hstake hrejected
  rw [haccepted, hwork, hstake, hrejected, ← haccepted', ← hwork', ← hstake']

/-! ### One entry -/

/-- Two chains after one entry more: both have grown, or both end with the same rejection. -/
inductive Progress.SameFate (p q : Progress) : Progress → Progress → Prop
  | grown (x y : IndexedHeader) (n : Nat) : SameFate p q (p.grown x n) (q.grown y n)
  | rejected (r : UInt32 × WorkError) :
      SameFate p q { p with rejected := some r } { q with rejected := some r }

/-- What an entry does to one chain, its shifted copy does to the other. -/
theorem Progress.sameFate_extend
    (bis : Bisimulation p.store.source q.store.source d (Level p.store q.store))
    (tips : Level p.store q.store p.tip q.tip) (haccepted : p.accepted = q.accepted)
    (hnew : ∀ h, e.header p.tip.hash (p.tip.height + 1) = .ok h →
      p.store.byHash[h.hash]? = none)
    (hnew' : ∀ h, (e.shift d).header q.tip.hash (q.tip.height + 1) = .ok h →
      q.store.byHash[h.hash]? = none) :
    Corresponds (SameFate p q) (p.extend c t i [e]) (q.extend c t i [e.shift d]) := by
  rw [extend, extend, ← tips.height]
  by_cases room : p.tip.height = 0xffffffff
  · rw [if_pos room, if_pos room]
    exact .error _
  · rw [if_neg room, if_neg room]
    have headers := e.header_shift p.tip.hash q.tip.hash (p.tip.height + 1) (d := d)
    rw [← tips.height] at hnew'
    generalize e.header p.tip.hash (p.tip.height + 1) = u,
      (e.shift d).header q.tip.hash (p.tip.height + 1) = v at headers hnew hnew' ⊢
    cases headers with
    | error fault => exact .error fault
    | @ok h h' same =>
        obtain ⟨hparent, hparent', hkind, hbits⟩ := same
        have hlink := link_tip tips.holds_left room hparent (hnew h rfl)
        have hlink' := link_tip tips.holds_right (by rwa [← tips.height]) hparent' (hnew' h' rfl)
        have verdict : p.judge c (i < t) h = q.judge c (i < t) h' := by
          rw [judge, judge, bis.check_eq tips hkind hbits, haccepted]
        simp only [verdict, Store.insert_of_link_ok hlink, Store.insert_of_link_ok hlink']
        cases q.judge c (i < t) h' with
        | ok n => exact .ok (.grown _ _ n)
        | error fault =>
            cases fault with
            | difficulty expected actual => exact .ok (.rejected _)
            | diverged _ _ => exact .error _
            | link _ => exact .error _
            | divisionByZero => exact .error _

/-- The first entry and its shifted copy both start a chain, or neither can be read. -/
theorem Progress.corresponds_start (height : UInt32) (e : Entry) (d : Int) :
    Corresponds (fun _ _ => True) (start height e) (start height (e.shift d)) := by
  have headers := e.header_shift Hash.zero Hash.zero height (d := d)
  rw [start, start]
  generalize e.header Hash.zero height = u, (e.shift d).header Hash.zero height = v at headers ⊢
  cases headers with
  | error fault => exact .error fault
  | ok _ => exact .ok trivial

/-! ### The whole replay -/

namespace File

/-- The first header names the zero hash as its parent, and no stored header hashes to zero. -/
theorem parent_root (avoids : f.Avoids c Hash.zero) (hle : i ≤ f.entries.length)
    (hp : (f.upTo i).progress c = .ok p) (hrejected : p.rejected = none)
    (spans : p.Spans root i) (hparent : root.header.parent = Hash.zero) :
    p.store.source.parent root = .error (.unknownParent Hash.zero) := by
  have hnone : p.store.source (.hash Hash.zero) = none := by
    apply Option.eq_none_iff_forall_ne_some.2
    intro x hx
    exact avoids i p x hle hp hrejected (spans.linked.holds hx) (spans.linked.hash_eq hx).1
  rw [HeaderSource.parent, hparent, hnone]

section

variable (hi : 1 ≤ i) (hle : i ≤ f.entries.length)
  (hp : (f.upTo i).progress c = .ok p) (hpRejected : p.rejected = none)
  (hq : ((f.shift d).upTo i).progress c = .ok q) (hqRejected : q.rejected = none)
  (avoids : f.height ≠ 0 → f.Avoids c Hash.zero)
  (avoids' : f.height ≠ 0 → (f.shift d).Avoids c Hash.zero)
include hi hle hp hpRejected hq hqRejected

theorem level_tips : Level p.store q.store p.tip q.tip := by
  have hle' : i ≤ (f.shift d).entries.length := by rwa [length_shift]
  obtain ⟨root, hroot, spans⟩ := exists_spans hi hle hp hpRejected
  obtain ⟨root', hroot', spans'⟩ := exists_spans hi hle' hq hqRejected
  have htip := spans.tip_height
  have htip' := spans'.tip_height
  rw [hroot] at htip
  rw [hroot', height_shift] at htip'
  exact ⟨spans.holds_tip, spans'.holds_tip, UInt32.toNat_inj.1 (by omega)⟩

theorem shifted_of_level (shiftable : f.Shiftable d) (level : Level p.store q.store x y) :
    x.Shifted d y := by
  have hle' : i ≤ (f.shift d).entries.length := by rwa [length_shift]
  obtain ⟨m, e, hm, he, describes⟩ := reads_progress hi hle hp hpRejected x level.holds_left
  obtain ⟨n, e', hn, he', describes'⟩ := reads_progress hi hle' hq hqRejected y level.holds_right
  have hindex : m = n := by
    rw [level.height, hn, height_shift] at hm
    omega
  rw [← hindex, getElem?_shift he] at he'
  cases he'
  obtain ⟨range, range'⟩ := shiftable e (List.mem_of_getElem? he)
  exact describes.shifted describes' level.height range range'

include avoids avoids'

/-- The parents of headers of one height stand at one height again. Those of the first headers are
missing in both stores. -/
theorem corresponds_parent (level : Level p.store q.store x y) (hheight : x.height ≠ 0) :
    Corresponds (Level p.store q.store) (p.store.source.parent x) (q.store.source.parent y) := by
  have hle' : i ≤ (f.shift d).entries.length := by rwa [length_shift]
  obtain ⟨root, hroot, hparent, spans⟩ := exists_root hi hle hp hpRejected
  obtain ⟨root', hroot', hparent', spans'⟩ := exists_root hi hle' hq hqRejected
  have roots : x = root ↔ y = root' := by
    rw [spans.linked.eq_root_iff level.holds_left, spans'.linked.eq_root_iff level.holds_right,
      level.height, hroot, hroot', height_shift]
  by_cases hx : x = root
  · have hy := roots.1 hx
    subst hx hy
    rw [hroot] at hheight
    rw [parent_root (avoids hheight) hle hp hpRejected spans hparent,
      parent_root (avoids' hheight) hle' hq hqRejected spans' hparent']
    exact .error _
  · obtain ⟨z, hz, hbelow⟩ := spans.linked.parent level.holds_left hx
    obtain ⟨z', hz', hbelow'⟩ := spans'.linked.parent level.holds_right (mt roots.2 hx)
    rw [HeaderSource.parent_eq_ok.2 ⟨hz, hbelow⟩, HeaderSource.parent_eq_ok.2 ⟨hz', hbelow'⟩]
    rw [level.height] at hbelow
    exact .ok ⟨spans.linked.holds hz, spans'.linked.holds hz', UInt32.toNat_inj.1 (by omega)⟩

theorem summary_shift : p.summary = q.summary := by
  have covers : p.summary.Covers f i := covers_progress avoids hi hle hp hpRejected
  have covers' : q.summary.Covers (f.shift d) i :=
    covers_progress avoids' hi (by rwa [length_shift]) hq hqRejected
  exact covers.unique covers'.of_shift (hpRejected.trans hqRejected.symm)

end

/-- Replays of as many entries report the same or end in the same error. By induction on the
number of entries. -/
theorem corresponds_progress (shiftable : f.Shiftable d) (fresh : f.Fresh c)
    (fresh' : (f.shift d).Fresh c) (avoids : f.height ≠ 0 → f.Avoids c Hash.zero)
    (avoids' : f.height ≠ 0 → (f.shift d).Avoids c Hash.zero) (hi : 1 ≤ i)
    (hle : i ≤ f.entries.length) :
    Corresponds (fun p q => p.summary = q.summary) ((f.upTo i).progress c)
      (((f.shift d).upTo i).progress c) := by
  induction i, hi using Nat.le_induction with
  | base =>
      have he : f.entries[0]? = some f.entries[0] := List.getElem?_eq_getElem hle
      have hstart := progress_upTo_one (c := c) he
      have hstart' := progress_upTo_one (f := f.shift d) (c := c) (getElem?_shift he)
      rw [hstart, hstart']
      refine (Progress.corresponds_start f.height f.entries[0] d).imp ?_
      intro p q hp hq _
      exact summary_shift le_rfl hle (hstart.trans hp) (rejected_of_start hp)
        (hstart'.trans hq) (rejected_of_start hq) avoids avoids'
  | succ i hi ih =>
      have he : f.entries[i]? = some f.entries[i] := List.getElem?_eq_getElem hle
      have hsucc := progress_upTo_succ (c := c) hi he
      have hsucc' := progress_upTo_succ (f := f.shift d) (c := c) hi (getElem?_shift he)
      rw [hsucc, hsucc']
      refine (ih (Nat.le_of_lt hle)).bind ?_
      intro p q hp hq hsummary
      have hrejected : p.rejected = q.rejected := congrArg Summary.rejected hsummary
      by_cases hended : p.rejected = none
      · have hqRejected : q.rejected = none := hrejected.symm.trans hended
        have hlt := Nat.le_of_lt hle
        have bis : Bisimulation p.store.source q.store.source d (Level p.store q.store) :=
          ⟨shifted_of_level hi hlt hp hended hq hqRejected shiftable,
            corresponds_parent hi hlt hp hended hq hqRejected avoids avoids'⟩
        have tips := level_tips hi hlt hp hended hq hqRejected
        rw [if_pos hended, if_pos hqRejected]
        refine (Progress.sameFate_extend bis tips (congrArg Summary.accepted hsummary)
          (fun h => fresh i _ p h he hp hended)
          (fun h => fresh' i _ q h (getElem?_shift he) hq hqRejected)).imp ?_
        intro p' q' hp' hq' fate
        rw [hp, Except.bind, if_pos hended] at hsucc
        rw [hq, Except.bind, if_pos hqRejected] at hsucc'
        cases fate with
        | grown x y n =>
            exact summary_shift (Nat.le_succ_of_le hi) hle (hsucc.trans hp') hended
              (hsucc'.trans hq') hqRejected avoids avoids'
        | rejected r => exact congrArg (fun s : Summary => { s with rejected := some r }) hsummary
      · have hqEnded : q.rejected ≠ none := hrejected ▸ hended
        rw [if_neg hended, if_neg hqEnded]
        exact .ok hsummary

/-- The times of a file can all be shifted without a change of the outcome, be it a summary or an
error, as long as no time leaves the range of its field. In both replays the hashes of the headers
must be new as they come, and not zero when the file starts above height zero. -/
theorem run_shift (f : File) (c : Consensus) (d : Int) (shiftable : f.Shiftable d)
    (fresh : f.Fresh c) (fresh' : (f.shift d).Fresh c)
    (avoids : f.height ≠ 0 → f.Avoids c Hash.zero)
    (avoids' : f.height ≠ 0 → (f.shift d).Avoids c Hash.zero) :
    (f.shift d).run c = f.run c := by
  by_cases hlength : 1 ≤ f.entries.length
  · have corresponds := corresponds_progress shiftable fresh fresh' avoids avoids' hlength le_rfl
    rw [upTo_of_length_le le_rfl, upTo_of_length_le (length_shift f).le] at corresponds
    exact (corresponds.map_eq fun _ _ same => same).symm
  · have hempty : f.entries = [] := List.eq_nil_of_length_eq_zero (by omega)
    have hempty' : (f.shift d).entries = [] := by
      rw [shift, hempty]
      rfl
    rw [run, run, progress, progress, hempty, hempty']

/-- The last of four stakes declares a wrong target, also if all come a day earlier. -/
theorem run_shift_stakes :
    let stake (time : UInt32) (bits : String) : Entry :=
      { time := time, bits := bits, kind := .stake }
    let f : File :=
      { height := 500008
        trusted := 2
        entries := [stake 101000 "1a0a3d1c", stake 101144 "1a0a3d1c", stake 101272 "1a0a51aa",
          stake 101400 "1a0a51ab"] }
    let s : Summary :=
      { accepted := 1, work := 0, stake := 3
        rejected := some (500011, .difficulty ⟨0x1a0a51aa⟩ ⟨0x1a0a51ab⟩) }
    f.Shiftable (-86400) ∧ f.Fresh .testnet ∧ (f.shift (-86400)).Fresh .testnet ∧
      (f.height ≠ 0 → f.Avoids .testnet Hash.zero) ∧
      (f.height ≠ 0 → (f.shift (-86400)).Avoids .testnet Hash.zero) ∧
      f.run .testnet = .ok s ∧ (f.shift (-86400)).run .testnet = .ok s := by
  intro stake f s
  have shiftable : f.Shiftable (-86400) := by decide
  have facts : f.run .testnet = .ok s ∧
      (f.headers.map Header.hash).Nodup ∧ Hash.zero ∉ f.headers.map Header.hash := by
    decide +kernel
  have facts' : ((f.shift (-86400)).headers.map Header.hash).Nodup ∧
      Hash.zero ∉ (f.shift (-86400)).headers.map Header.hash := by
    decide +kernel
  obtain ⟨hrun, distinct, hzero⟩ := facts
  obtain ⟨distinct', hzero'⟩ := facts'
  have fresh : f.Fresh .testnet := fresh_of_nodup distinct
  have fresh' : (f.shift (-86400)).Fresh .testnet := fresh_of_nodup distinct'
  have avoids : f.height ≠ 0 → f.Avoids .testnet Hash.zero := fun _ => avoids_of_notMem hzero
  have avoids' : f.height ≠ 0 → (f.shift (-86400)).Avoids .testnet Hash.zero :=
    fun _ => avoids_of_notMem hzero'
  refine ⟨shiftable, fresh, fresh', avoids, avoids', hrun, ?_⟩
  rw [run_shift f .testnet (-86400) shiftable fresh fresh' avoids avoids', hrun]

end File

end Retarget.Replay
