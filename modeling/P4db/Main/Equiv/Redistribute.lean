import Mathlib.Data.List.Induction
import P4db.Algorithm.Pieces
import P4db.Ee.TxnExecutor
import P4db.Main.Redistribute

/-!
# Two rounds are enough

* `round_length_le`: after one round no worker has too much.
* `round_of_le`: a round that starts like that and has enough in `redist` gives every worker its
  share.
* `redistribute_spec`: both rounds.
* `redistribute_dealAll`: what the workers get from the trace.
-/

namespace P4db.Main

variable {τ : Type*}

/-! ### One worker -/

theorem shed_spec (n : ℕ) (core redist : List τ) :
    (shed n core redist).1.length = min n core.length ∧
    ((shed n core redist).1 ++ (shed n core redist).2).Perm (core ++ redist) := by
  induction core generalizing redist with
  | nil =>
    unfold shed
    exact ⟨by simp, List.Perm.refl _⟩
  | cons txn core ih =>
    unfold shed
    split_ifs with h
    · obtain ⟨hlen, hperm⟩ := ih (txn :: redist)
      refine ⟨?_, hperm.trans List.perm_middle⟩
      rw [hlen]
      rw [List.length_cons] at h ⊢
      omega
    · refine ⟨?_, List.Perm.refl _⟩
      dsimp only
      omega

theorem fill_spec (n : ℕ) (core redist : List τ) (h : core.length ≤ n) :
    (fill n core redist).1.length = min n (core.length + redist.length) ∧
      ((fill n core redist).1 ++ (fill n core redist).2).Perm (core ++ redist) := by
  induction redist generalizing core with
  | nil =>
    unfold fill
    refine ⟨?_, List.Perm.refl _⟩
    rw [List.length_nil, Nat.add_zero, Nat.min_eq_right h]
  | cons txn redist ih =>
    unfold fill
    split_ifs with hlt
    · obtain ⟨hlen, hperm⟩ := ih (txn :: core) hlt
      refine ⟨?_, hperm.trans List.perm_middle.symm⟩
      rw [hlen, List.length_cons, List.length_cons]
      omega
    · refine ⟨?_, List.Perm.refl _⟩
      dsimp only
      rw [List.length_cons]
      omega

/-! ### Rounds -/

theorem round_cons (n : ℕ) (core : List τ) (cores : List (List τ)) (redist : List τ) :
    ∃ core' redist', round n (core :: cores) redist =
      (core' :: (round n cores redist').1, (round n cores redist').2) ∧
      core'.length = min n (core.length + redist.length) ∧
        (core' ++ redist').Perm (core ++ redist) := by
  obtain ⟨hshed, hpermShed⟩ := shed_spec n core redist
  obtain ⟨hfill, hpermFill⟩ := fill_spec n (shed n core redist).1 (shed n core redist).2 (by omega)
  refine ⟨_, _, rfl, ?_, hpermFill.trans hpermShed⟩
  have hlen := hpermShed.length_eq
  rw [List.length_append, List.length_append] at hlen
  rw [hfill, hlen]

/-- A round moves the transactions around. -/
theorem perm_round (n : ℕ) (cores : List (List τ)) (redist : List τ) :
    ((round n cores redist).1.flatten ++ (round n cores redist).2).Perm
    (cores.flatten ++ redist) := by
  induction cores generalizing redist with
  | nil => exact List.Perm.refl _
  | cons core cores ih =>
    obtain ⟨core', redist', heq, -, hperm⟩ := round_cons n core cores redist
    rw [heq, List.flatten_cons, List.flatten_cons, List.append_assoc, List.append_assoc]
    have hrest : (core' ++ ((round n cores redist').1.flatten ++ (round n cores redist').2)).Perm
        (core' ++ (cores.flatten ++ redist')) := (ih redist').append_left core'
    have hthis : (cores.flatten ++ (core' ++ redist')).Perm (cores.flatten ++ (core ++ redist)) :=
      hperm.append_left cores.flatten
    exact hrest.trans ((List.perm_append_comm_assoc _ _ _).trans
      (hthis.trans (List.perm_append_comm_assoc _ _ _)))

theorem length_round (n : ℕ) (cores : List (List τ)) (redist : List τ) :
    (round n cores redist).1.length = cores.length := by
  induction cores generalizing redist with
  | nil => rfl
  | cons core cores ih =>
    obtain ⟨core', redist', heq, -⟩ := round_cons n core cores redist
    rw [heq, List.length_cons, List.length_cons, ih]

/-- After a round no worker has too much. -/
theorem round_length_le (n : ℕ) (cores : List (List τ)) (redist : List τ) :
    ∀ core ∈ (round n cores redist).1, core.length ≤ n := by
  induction cores generalizing redist with
  | nil => exact fun core hcore => absurd hcore List.not_mem_nil
  | cons core cores ih =>
    obtain ⟨core', redist', heq, hlen, -⟩ := round_cons n core cores redist
    rw [heq]
    intro c hc
    rcases List.mem_cons.mp hc with rfl | hc
    · rw [hlen]
      exact Nat.min_le_left _ _
    · exact ih redist' c hc

theorem length_flatten_le {n : ℕ} {cores : List (List τ)} (h : ∀ core ∈ cores, core.length ≤ n) :
    cores.flatten.length ≤ n * cores.length := by
  induction cores with
  | nil => exact Nat.zero_le _
  | cons core cores ih =>
    have hcore := h core List.mem_cons_self
    have hcores := ih fun c hc => h c (List.mem_cons_of_mem core hc)
    rw [List.flatten_cons, List.length_append, List.length_cons, Nat.mul_succ]
    omega

/-- Where no worker has too much and there is enough for all, everyone gets the share. -/
theorem round_of_le {n : ℕ} {cores : List (List τ)} {redist : List τ}
    (hle : ∀ core ∈ cores, core.length ≤ n)
    (henough : n * cores.length ≤ cores.flatten.length + redist.length) :
    ∀ core ∈ (round n cores redist).1, core.length = n := by
  induction cores generalizing redist with
  | nil => exact fun core hcore => absurd hcore List.not_mem_nil
  | cons core cores ih =>
    have hcore := hle core List.mem_cons_self
    have hcores : ∀ c ∈ cores, c.length ≤ n := fun c hc => hle c (List.mem_cons_of_mem core hc)
    have hsum := length_flatten_le hcores
    rw [List.flatten_cons, List.length_append, List.length_cons, Nat.mul_succ] at henough
    obtain ⟨core', redist', heq, hlen, hperm⟩ := round_cons n core cores redist
    -- the others have not more than their shares, so there is enough for this one
    have hfull : core'.length = n := by
      rw [hlen]
      omega
    have hrest := hperm.length_eq
    rw [List.length_append, List.length_append] at hrest
    rw [heq]
    intro c hc
    rcases List.mem_cons.mp hc with rfl | hc
    · exact hfull
    · exact ih hcores (by omega) c hc

/-- Both rounds.  The first one takes away what is too much, and what it collects is enough for the
second one. -/
theorem redistribute_equal {perCoreTxns : List (List τ)} {numTxns : ℕ}
    (htxns : perCoreTxns.flatten.length = numTxns) :
    (redistribute numTxns perCoreTxns).1.length = perCoreTxns.length ∧
      (∀ core ∈ (redistribute numTxns perCoreTxns).1, core.length = numTxns / perCoreTxns.length) ∧
      (redistribute numTxns perCoreTxns).2.length = numTxns % perCoreTxns.length ∧
      ((redistribute numTxns perCoreTxns).1.flatten ++ (redistribute numTxns perCoreTxns).2).Perm
      perCoreTxns.flatten := by
  set n := numTxns / perCoreTxns.length with hn
  have hdiv : n * perCoreTxns.length + numTxns % perCoreTxns.length = numTxns :=
    Nat.div_add_mod' _ _
  have hperm₁ := perm_round n perCoreTxns []
  have hlen₁ := length_round n perCoreTxns []
  have hle₁ := round_length_le n perCoreTxns []
  rw [List.append_nil] at hperm₁
  have hsum₁ := hperm₁.length_eq
  rw [List.length_append, htxns] at hsum₁
  set first := round n perCoreTxns [] with hfirst
  have heq : redistribute numTxns perCoreTxns = round n first.1 first.2 := rfl
  have hperm₂ := (perm_round n first.1 first.2).trans hperm₁
  have hlen₂ := length_round n first.1 first.2
  have hfull : ∀ core ∈ (round n first.1 first.2).1, core.length = n := by
    refine round_of_le hle₁ ?_
    rw [hlen₁]
    omega
  have hsum₂ := hperm₂.length_eq
  rw [List.length_append, htxns, Pieces.length_flatten hfull, hlen₂, hlen₁] at hsum₂
  rw [heq]
  exact ⟨hlen₂.trans hlen₁, hfull, by omega, hperm₂⟩

/-- **Redistribution.**  However the transactions are dealt out, after the two rounds every worker
has `numTxns / numTxnWorkers` of them, `numTxns % numTxnWorkers` are left over, and none was lost or
doubled.  So all workers go through the same number of transactions in whole batches. -/
theorem redistribute_spec (perCoreTxns : List (List τ)) (numTxns : ℕ)
    (htxns : perCoreTxns.flatten.length = numTxns) :
    (redistribute numTxns perCoreTxns).1.length = perCoreTxns.length ∧
      (∀ core ∈ (redistribute numTxns perCoreTxns).1, core.length = numTxns / perCoreTxns.length) ∧
      (redistribute numTxns perCoreTxns).2.length = numTxns % perCoreTxns.length ∧
      ((redistribute numTxns perCoreTxns).1.flatten ++ (redistribute numTxns perCoreTxns).2).Perm
      perCoreTxns.flatten ∧
      ∀ c c' : WorkerConf, c.numTxnWorkers = c'.numTxnWorkers →
        ∀ core ∈ (redistribute numTxns perCoreTxns).1,
          ∀ core' ∈ (redistribute numTxns perCoreTxns).1,
          c.numTxns = core.length → c'.numTxns = core'.length → c.size = c'.size := by
  obtain ⟨hlen, hfull, hleft, hperm⟩ := redistribute_equal htxns
  refine ⟨hlen, hfull, hleft, hperm, ?_⟩
  intro c c' hworkers core hcore core' hcore' hc hc'
  rw [hfull core hcore] at hc
  rw [hfull core' hcore'] at hc'
  unfold WorkerConf.size WorkerConf.batchTgt
  rw [hc, hc', hworkers]

/-- A worker that has nothing when its turn comes gets its share in the second round. -/
theorem redistribute_spec_lateShare :
    (redistribute 8 [[], [1, 2, 3, 4, 5, 6, 7], [8]]).1.map List.length = [2, 2, 2] ∧
    (redistribute 8 [[], [1, 2, 3, 4, 5, 6, 7], [8]]).2.length = 2 := by
  obtain ⟨hlen, hfull, hleft, -⟩ := redistribute_spec [[], [1, 2, 3, 4, 5, 6, 7], [8]] 8 rfl
  refine ⟨?_, hleft⟩
  have hmap : (redistribute 8 [[], [1, 2, 3, 4, 5, 6, 7], [8]]).1.map List.length =
      List.replicate 3 2 := by
    rw [List.eq_replicate_iff, List.length_map]
    refine ⟨hlen, ?_⟩
    intro b hb
    obtain ⟨core, hcore, rfl⟩ := List.mem_map.mp hb
    exact hfull core hcore
  exact hmap

/-! ### The trace -/

theorem perm_flatten_modify {cores : List (List τ)} {i : ℕ} (hi : i < cores.length) (txn : τ) :
    (cores.modify i (txn :: ·)).flatten.Perm (txn :: cores.flatten) := by
  induction cores generalizing i with
  | nil => exact absurd hi (Nat.not_lt_zero i)
  | cons core cores ih =>
    cases i with
    | zero => exact List.Perm.refl _
    | succ i =>
      rw [List.modify_succ_cons, List.flatten_cons, List.flatten_cons]
      exact ((ih (Nat.lt_of_succ_lt_succ hi)).append_left core).trans List.perm_middle

/-- The workers have the transactions of the trace. -/
theorem perm_dealAll {numTxnWorkers : ℕ} (hworkers : 1 ≤ numTxnWorkers) (part : PartitionInfo)
    (txns : List Txn) :
    (dealAll numTxnWorkers part txns).length = numTxnWorkers ∧
    (dealAll numTxnWorkers part txns).flatten.Perm txns := by
  unfold dealAll
  induction txns using List.reverseRecOn with
  | nil =>
    refine ⟨List.length_replicate, ?_⟩
    simp
  | append_singleton txns txn ih =>
    rw [List.foldl_append]
    set st := txns.foldl (Dealing.deal numTxnWorkers part)
      ⟨fun _ => 0, List.replicate numTxnWorkers []⟩ with hst
    have hlow : lowest numTxnWorkers st.nRemote < st.perCoreTxns.length := by
      rw [ih.1]
      exact lowest_lt hworkers st.nRemote
    show (st.perCoreTxns.modify (lowest numTxnWorkers st.nRemote) (txn :: ·)).length =
      numTxnWorkers ∧
      (st.perCoreTxns.modify (lowest numTxnWorkers st.nRemote) (txn :: ·)).flatten.Perm
      (txns ++ [txn])
    refine ⟨?_, ?_⟩
    · rw [List.length_modify]
      exact ih.1
    · exact (perm_flatten_modify hlow txn).trans
        ((ih.2.cons txn).trans (List.perm_append_singleton txn txns).symm)

/-- What the workers start with, from the trace: equal shares of its transactions. -/
theorem redistribute_dealAll {numTxnWorkers : ℕ} (hworkers : 1 ≤ numTxnWorkers)
    (part : PartitionInfo) (txns : List Txn) :
    let dealt := redistribute txns.length (dealAll numTxnWorkers part txns)
    dealt.1.length = numTxnWorkers ∧ (∀ core ∈ dealt.1, core.length = txns.length / numTxnWorkers) ∧
      dealt.2.length = txns.length % numTxnWorkers ∧ (dealt.1.flatten ++ dealt.2).Perm txns := by
  obtain ⟨hlen, hperm⟩ := perm_dealAll hworkers part txns
  obtain ⟨hlen', hfull, hleft, hperm'⟩ := redistribute_equal hperm.length_eq
  rw [hlen] at hlen' hfull hleft
  exact ⟨hlen', hfull, hleft, hperm'.trans hperm⟩

end P4db.Main
