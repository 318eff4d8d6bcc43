import Retarget.Proofs.Acceptance
import Retarget.Proofs.Adjustment.Networks
import Retarget.Proofs.Compact.Text
import Retarget.Proofs.Replay.Span

/-!
# Honest headers are accepted

Who declares in every header the encoding of what is required on the chain so far is never
rejected on a built-in network, in whatever order the kinds come and whatever the times
are: a required target exists, its encoding survives the way through the text, it passes
the comparison at its own precision, and a header with a new hash links to the tip. The
encoding loses low bits, so that a check passes is not the same as the targets being equal.
-/

namespace Retarget

namespace Consensus

variable {c : Consensus} {source : HeaderSource} {parent : IndexedHeader} {h : Header}

theorem check_ofTarget {work : Target} (hw : c.requiredTarget source h.kind parent = .ok work)
    (hbits : h.bits = Compact.ofTarget work) : c.check source parent h = .ok () := by
  rw [check_eq_ok_iff hw, hbits]
  exact Compact.ofTarget_masked_ofTarget work

end Consensus

namespace Replay

/-- The headers of entries, each on top of the one before. The list ends at an entry whose
compact target cannot be read. -/
def headers (parent : Hash) (height : UInt32) : List Entry → List Header
  | [] => []
  | e :: es =>
    match e.header parent height with
    | .error _ => []
    | .ok h => h :: headers h.hash (height + 1) es

def File.headers (f : File) : List Header := Replay.headers Hash.zero f.height f.entries

/-- Every entry but the first declares the encoding of what is required on the chain that
is replayed before it. -/
def File.Honest (f : File) (c : Consensus) : Prop :=
  ∀ i e p work, 1 ≤ i → f.entries[i]? = some e → (f.upTo i).progress c = .ok p →
    p.rejected = none → c.requiredTarget p.store.source e.kind p.tip = .ok work →
    e.bits = (Compact.ofTarget work).toText

variable {c : Consensus} {f : File} {e : Entry} {es : List Entry} {p : Progress}
  {h : Header} {x root : IndexedHeader}

theorem Entry.exists_header {bits : Compact} (parsed : Compact.parse e.bits = .ok bits)
    (parent : Hash) (height : UInt32) :
    ∃ h, e.header parent height = .ok h ∧ h.parent = parent ∧ h.kind = e.kind ∧
      h.bits = bits := by
  obtain ⟨h, header⟩ : ∃ h, e.header parent height = .ok h := by
    rw [Entry.header, parsed]
    exact ⟨_, rfl⟩
  obtain ⟨hparent, hkind, hbits⟩ := Entry.header_eq_ok header
  rw [parsed] at hbits
  exact ⟨h, header, hparent, hkind, (Except.ok.inj hbits).symm⟩

/-- The chain is what the file describes so far: on its tip follow the headers of the
entries that are left, and only hashes of headers before them are stored. -/
def Progress.Follows (p : Progress) (hs : List Header) (es : List Entry) : Prop :=
  ∃ before, hs = before ++ headers p.tip.hash (p.tip.height + 1) es ∧
    ∀ k x, p.store.byHash[k]? = some x → k ∈ before.map Header.hash

theorem Progress.follows_start (es : List Entry) {height : UInt32}
    (hp : start height e = .ok p) :
    p.Follows (headers Hash.zero height (e :: es)) es := by
  obtain ⟨h, header, rfl⟩ := start_eq_ok hp
  refine ⟨[h], ?_, ?_⟩
  · rw [headers, header]
    rfl
  · intro k y hy
    rw [Store.byHash_place] at hy
    split at hy
    · next hk => exact List.mem_singleton.2 hk.symm
    · cases hy

/-- The header of the next entry is new when all headers have distinct hashes. -/
theorem Progress.Follows.getElem?_eq_none {hs : List Header} (follows : p.Follows hs (e :: es))
    (header : e.header p.tip.hash (p.tip.height + 1) = .ok h)
    (distinct : (hs.map Header.hash).Nodup) : p.store.byHash[h.hash]? = none := by
  obtain ⟨before, rfl, hstored⟩ := follows
  rw [headers, header, List.map_append, List.nodup_append] at distinct
  cases hget : p.store.byHash[h.hash]? with
  | none => rfl
  | some x =>
      exact absurd rfl (distinct.2.2 _ (hstored _ _ hget) _ List.mem_cons_self)

/-- After the growth the file describes the chain one header further. -/
theorem Progress.Follows.grown {hs : List Header} {accepted : ℕ}
    (follows : p.Follows hs (e :: es))
    (header : e.header p.tip.hash (p.tip.height + 1) = .ok h)
    (hx : x = .ofHeader (p.tip.height + 1) h) : (p.grown x accepted).Follows hs es := by
  obtain ⟨before, rfl, hstored⟩ := follows
  refine ⟨before ++ [h], ?_, ?_⟩
  · rw [headers, header, List.append_assoc, hx]
    rfl
  · intro k y hy
    change (p.store.place x).byHash[k]? = some y at hy
    rw [Store.byHash_place] at hy
    rw [List.map_append, List.mem_append]
    split at hy
    · next hk =>
      rw [hx] at hk
      exact .inr (List.mem_singleton.2 hk.symm)
    · exact .inl (hstored k y hy)

/-- What is left of a file always follows on the chain that is replayed so far. By induction
on the number of entries. -/
theorem File.follows_progress {i : ℕ} (hi : 1 ≤ i) (hle : i ≤ f.entries.length)
    (hp : (f.upTo i).progress c = .ok p) (hrejected : p.rejected = none) :
    p.Follows f.headers (f.entries.drop i) := by
  refine progress_induction (motive := fun i p => p.Follows f.headers (f.entries.drop i))
    ?_ ?_ hi hle hp hrejected
  · intro e p he hstart
    obtain ⟨hlt, rfl⟩ := List.getElem?_eq_some_iff.1 he
    have hsplit : f.entries = f.entries[0] :: f.entries.drop 1 := by
      rw [← List.drop_eq_getElem_cons hlt, List.drop_zero]
    have follows := Progress.follows_start (f.entries.drop 1) hstart
    rwa [← hsplit] at follows
  · intro i e p h x accepted hi he hp hrejected follows growth
    obtain ⟨hlt, rfl⟩ := List.getElem?_eq_some_iff.1 he
    obtain ⟨root, -, spans⟩ := exists_spans hi hlt.le hp hrejected
    rw [List.drop_eq_getElem_cons hlt] at follows
    exact follows.grown growth.header (growth.link_eq spans.holds_tip).1

/-- No header that a replay comes to has the hash of one before it. -/
def File.Fresh (f : File) (c : Consensus) : Prop :=
  ∀ i e p h, f.entries[i]? = some e → (f.upTo i).progress c = .ok p → p.rejected = none →
    e.header p.tip.hash (p.tip.height + 1) = .ok h → p.store.byHash[h.hash]? = none

theorem File.fresh_of_nodup (distinct : (f.headers.map Header.hash).Nodup) : f.Fresh c := by
  intro i e p h he hp hrejected header
  have hi := pos_of_progress hp
  obtain ⟨hlt, rfl⟩ := List.getElem?_eq_some_iff.1 he
  have follows := follows_progress hi hlt.le hp hrejected
  rw [List.drop_eq_getElem_cons hlt] at follows
  exact follows.getElem?_eq_none header distinct

/-- An entry that declares what is required grows the chain, if its header is new. -/
theorem Progress.Spans.exists_growth {n : ℕ} (spans : p.Spans root n) (hroot : root.height = 0)
    (hc : c.Converges) (room : p.tip.height ≠ 0xffffffff)
    (declares : ∀ work, c.requiredTarget p.store.source e.kind p.tip = .ok work →
      e.bits = (Compact.ofTarget work).toText)
    (hnew : ∀ h, e.header p.tip.hash (p.tip.height + 1) = .ok h →
      p.store.byHash[h.hash]? = none) :
    ∃ h x, Grows c false e p h x (p.accepted + 1) := by
  obtain ⟨history, hhistory, -⟩ := spans.linked.exists_history hroot e.kind spans.holds_tip
  obtain ⟨work, hw⟩ := hc.exists_requiredTarget hhistory
  have parsed : Compact.parse e.bits = .ok (Compact.ofTarget work) := by
    rw [declares work hw, Compact.parse_toText]
  obtain ⟨h, header, hparent, hkind, hbits⟩ :=
    Entry.exists_header parsed p.tip.hash (p.tip.height + 1)
  have hcheck : c.check p.store.source p.tip h = .ok () := by
    refine Consensus.check_ofTarget ?_ hbits
    rw [hkind, hw]
  exact ⟨h, _, room, header, judge_eq_ok.2 ⟨hcheck, rfl⟩,
    link_tip spans.holds_tip room hparent (hnew h header)⟩

/-- An honest file is replayed entry by entry without an error or a rejection. By induction
on the number of entries. -/
theorem File.exists_progress (hc : c.Converges) (hheight : f.height = 0) (htrusted : f.trusted ≤ 1)
    (hfirst : ∀ e, f.entries[0]? = some e → ∃ bits, Compact.parse e.bits = .ok bits)
    (hlength : f.entries.length < 2 ^ 32) (fresh : f.Fresh c) (honest : f.Honest c) {i : ℕ}
    (hi : 1 ≤ i) (hle : i ≤ f.entries.length) :
    ∃ p, (f.upTo i).progress c = .ok p ∧ p.rejected = none ∧ p.accepted + 1 = i := by
  induction hi with
  | refl =>
      have he : f.entries[0]? = some f.entries[0] := List.getElem?_eq_getElem hle
      obtain ⟨bits, parsed⟩ := hfirst _ he
      obtain ⟨p, hp⟩ : ∃ p, Progress.start f.height f.entries[0] = .ok p := by
        obtain ⟨h, header, -⟩ := Entry.exists_header parsed Hash.zero f.height
        rw [Progress.start, header]
        exact ⟨_, rfl⟩
      refine ⟨p, (progress_upTo_one he).trans hp, rejected_of_start hp, ?_⟩
      obtain ⟨h, -, rfl⟩ := Progress.start_eq_ok hp
      rfl
  | @step i hi ih =>
      obtain ⟨p, hp, hrejected, hcount⟩ := ih (Nat.le_of_lt hle)
      have he : f.entries[i]? = some f.entries[i] := List.getElem?_eq_getElem hle
      obtain ⟨root, hroot, spans⟩ := exists_spans hi (Nat.le_of_lt hle) hp hrejected
      -- The tip of `i` headers stands at height `i - 1`, so the bound on the length leaves room.
      have room : p.tip.height ≠ 0xffffffff := by
        intro hmax
        have htip := spans.tip_height
        rw [hroot, hheight, hmax] at htip
        change 0xffffffff + 1 = 0 + i at htip
        omega
      obtain ⟨h, x, growth⟩ := spans.exists_growth (hroot.trans hheight) hc room
        (fun work hw => honest i _ p work hi he hp hrejected hw)
        (fun h header => fresh i _ p h he hp hrejected header)
      have hchecked : decide (i < max f.trusted 1) = false := decide_eq_false (by omega)
      refine ⟨p.grown x (p.accepted + 1), ?_, hrejected, congrArg (· + 1) hcount⟩
      refine (progress_succ_eq_ok hi).2 ⟨p, hp, .step he hrejected ?_⟩
      rw [hchecked]
      exact .grow growth

/-- On a built-in network an honest file of fewer than `2 ^ 32` headers with distinct hashes
is accepted from its second header to its last, and the encoding of every required target
passes the check that requires it. -/
theorem run_of_honest :
    (∀ (n : Network) (f : File), f.height = 0 → f.trusted ≤ 1 →
      ∀ first rest, f.entries = first :: rest →
      (∃ bits, Compact.parse first.bits = .ok bits) → rest.length < 2 ^ 32 - 1 →
      (f.headers.map Header.hash).Nodup → f.Honest (.ofNetwork n) →
      ∃ s, f.run (.ofNetwork n) = .ok s ∧ s.rejected = none ∧ s.accepted = rest.length ∧
        s.work + s.stake = rest.length + 1) ∧
    ∀ (c : Consensus) (source : HeaderSource) (parent : IndexedHeader) (h : Header)
      (work : Target), c.requiredTarget source h.kind parent = .ok work →
      h.bits = Compact.ofTarget work → c.check source parent h = .ok () := by
  constructor
  · intro n f hheight htrusted first rest hentries hfirst hlength distinct honest
    have hrest : f.entries.length = rest.length + 1 := by rw [hentries, List.length_cons]
    have hparsed : ∀ e, f.entries[0]? = some e → ∃ bits, Compact.parse e.bits = .ok bits := by
      intro e he
      rw [hentries] at he
      cases he
      exact hfirst
    obtain ⟨p, hp, hrejected, hcount⟩ := File.exists_progress
      (Consensus.converges_ofNetwork n) hheight htrusted hparsed (by omega)
      (File.fresh_of_nodup distinct) honest (by omega) (Nat.le_refl _)
    obtain ⟨root, hroot, spans⟩ := File.exists_spans (by omega) (Nat.le_refl _) hp hrejected
    rw [File.upTo_of_length_le le_rfl] at hp
    refine ⟨p.summary, File.run_eq_ok.2 ⟨p, hp, rfl⟩, hrejected, ?_, ?_⟩
    · change p.accepted = rest.length
      omega
    · rw [Progress.work_add_stake, spans.length_chain (hroot.trans hheight), hrest]
  · intro c source parent h work hw hbits
    exact Consensus.check_ofTarget hw hbits

/-- A stake and a block of work follow on the first header; the second of them is older. -/
theorem run_of_honest_mainnet :
    let first : Entry := { time := 100, bits := "0x1f00ffff" }
    let stake : Entry := { time := 228, bits := "0x1d00ffff", kind := .stake }
    let work : Entry := { time := 64, bits := "0x1f00ffff" }
    let f : File := { entries := [first, stake, work] }
    f.Honest .mainnet ∧ ∃ s, f.run .mainnet = .ok s ∧ s.rejected = none ∧ s.accepted = 2 ∧
      s.work + s.stake = 3 := by
  intro first stake work f
  have declared : ∀ i, ∀ h : i < f.entries.length, 1 ≤ i →
      ((f.upTo i).progress .mainnet).map (fun p =>
        (Consensus.mainnet.requiredTarget p.store.source f.entries[i].kind p.tip).map fun w =>
          (Compact.ofTarget w).toText) = .ok (.ok f.entries[i].bits) := by
    decide +kernel
  have honest : f.Honest .mainnet := by
    intro i e p w hi he hp _ hw
    obtain ⟨hlt, rfl⟩ := List.getElem?_eq_some_iff.1 he
    have hdeclared := declared i hlt hi
    rw [hp] at hdeclared
    simp only [Except.map, hw] at hdeclared
    exact (Except.ok.inj (Except.ok.inj hdeclared)).symm
  have distinct : (f.headers.map Header.hash).Nodup := by decide +kernel
  have parsed : ∃ bits, Compact.parse first.bits = .ok bits := ⟨⟨0x1f00ffff⟩, by decide⟩
  exact ⟨honest, run_of_honest.1 .mainnet f rfl le_rfl first [stake, work] rfl parsed (by decide)
    distinct honest⟩

end Replay

end Retarget
