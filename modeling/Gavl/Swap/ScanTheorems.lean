import Gavl.Swap.Scan
import Gavl.Wallet.CoinTheorems

/-!
# What a scan misses

A scan reads one page of the address's history. It sees every output and spend exactly when the
history fits that page.
-/

namespace Gavl

variable {script : String} {txs page : List EsploraTx} {tx : EsploraTx}

/-! ## The scan as two folds over entries -/

/-- The outputs of a transaction that pay the script, by key. -/
def payingOuts (script : String) (tx : EsploraTx) : List (String × HtlcOut) :=
  (tx.vout.zipIdx.filter fun v => decide (v.1.scriptpubkey = some script)).map fun v =>
    (outKey tx.txid v.2, ⟨tx.txid, v.2, v.1.value, tx.height, none⟩)

/-- The outpoint an input spends. -/
def spentOutpoint (vin : EsploraVin) : Option (String × ℕ) :=
  match vin.txid, vin.vout with
  | some txid, some vout => some (txid, vout)
  | _, _ => none

/-- What a transaction spends, by key. -/
def spendings (tx : EsploraTx) : List (String × HtlcSpend) :=
  tx.vin.filterMap fun vin =>
    (spentOutpoint vin).map fun o => (outKey o.1 o.2, ⟨tx.txid, tx.height, vin.witness⟩)

/-- Mark an output as spent, if it is there. -/
def mark (outs : OrderedMap String HtlcOut) (e : String × HtlcSpend) : OrderedMap String HtlcOut :=
  match outs.get? e.1 with
  | some o => outs.set e.1 { o with spend := some e.2 }
  | none => outs

theorem addOuts_eq (outs : OrderedMap String HtlcOut) :
    addOuts script outs tx = (payingOuts script tx).foldl (fun m e => m.set e.1 e.2) outs := by
  unfold addOuts payingOuts
  rw [List.foldl_map, List.foldl_filter]
  simp only [decide_eq_true_eq]

theorem foldl_markSpent_eq (outs : OrderedMap String HtlcOut) :
    tx.vin.foldl (markSpent tx) outs = (spendings tx).foldl mark outs := by
  unfold spendings
  rw [List.foldl_filterMap]
  congr 1
  funext outs vin
  unfold markSpent spentOutpoint
  cases vin.txid <;> cases vin.vout <;> rfl

theorem scanTxs_eq : scanTxs script txs = (txs.flatMap spendings).foldl mark
    ((txs.flatMap (payingOuts script)).foldl (fun m e => m.set e.1 e.2) ∅) := by
  unfold scanTxs
  rw [List.foldl_flatMap, List.foldl_flatMap]
  congr 1
  · funext outs tx
    exact foldl_markSpent_eq outs
  · congr 1
    funext outs tx
    exact addOuts_eq outs

/-! ## Marking -/

theorem get?_mark (m : OrderedMap String HtlcOut) (e : String × HtlcSpend) (k : String) :
    (mark m e).get? k =
      if e.1 = k then (m.get? k).map (fun o => { o with spend := some e.2 }) else m.get? k := by
  unfold mark
  split_ifs with hk
  · subst hk
    cases ho : m.get? e.1 with
    | none => exact ho
    | some o => exact OrderedMap.get?_set_self _ _ _
  · cases ho : m.get? e.1 with
    | none => rfl
    | some o => exact OrderedMap.get?_set_of_ne _ _ hk

variable {l : List (String × HtlcSpend)} {m : OrderedMap String HtlcOut} {k : String}

theorem get?_foldl_mark_of_notMem (h : k ∉ l.map Prod.fst) : (l.foldl mark m).get? k = m.get? k := by
  induction l generalizing m with
  | nil => rfl
  | cons e l ih =>
    rw [List.map_cons, List.mem_cons, not_or] at h
    rw [List.foldl_cons, ih h.2, get?_mark, if_neg (Ne.symm h.1)]

theorem get?_foldl_mark_of_mem {s : HtlcSpend} (hnodup : (l.map Prod.fst).Nodup) (h : (k, s) ∈ l) :
    (l.foldl mark m).get? k = (m.get? k).map (fun o => { o with spend := some s }) := by
  induction l generalizing m with
  | nil => exact absurd h List.not_mem_nil
  | cons e l ih =>
    obtain ⟨hnew, hnodup⟩ := List.nodup_cons.mp hnodup
    rcases List.mem_cons.mp h with rfl | h
    · rw [List.foldl_cons, get?_foldl_mark_of_notMem hnew, get?_mark, if_pos rfl]
    · have hne : e.1 ≠ k := fun heq => hnew (List.mem_map.mpr ⟨(k, s), h, heq.symm⟩)
      rw [List.foldl_cons, ih hnodup h, get?_mark, if_neg hne]

/-- What a marked map holds comes from the map, its spends from the marks. -/
theorem foldl_mark_source {o : HtlcOut} (h : (l.foldl mark m).get? k = some o) :
    ∃ o₀, m.get? k = some o₀ ∧ o.txid = o₀.txid ∧ o.vout = o₀.vout ∧
      (o.spend = o₀.spend ∨ ∃ e ∈ l, o.spend = some e.2) := by
  induction l generalizing m with
  | nil => exact ⟨o, h, rfl, rfl, .inl rfl⟩
  | cons e l ih =>
    obtain ⟨o₁, h₁, htxid, hvout, hspend⟩ := ih h
    have hspend : o.spend = o₁.spend ∨ ∃ e' ∈ e :: l, o.spend = some e'.2 :=
      hspend.imp_right fun ⟨e', he', hs⟩ => ⟨e', List.mem_cons_of_mem e he', hs⟩
    rw [get?_mark] at h₁
    split_ifs at h₁ with hk
    · obtain ⟨o₀, h₀, rfl⟩ := Option.map_eq_some_iff.mp h₁
      exact ⟨o₀, h₀, htxid, hvout, .inr (hspend.elim
        (fun hs => ⟨e, List.mem_cons_self, hs⟩) id)⟩
    · exact ⟨o₁, h₁, htxid, hvout, hspend⟩

/-! ## Histories -/

/-- `tx` pays the script in output `i`. -/
def PaysAt (script : String) (tx : EsploraTx) (i : ℕ) (v : EsploraVout) : Prop :=
  tx.vout[i]? = some v ∧ v.scriptpubkey = some script

/-- The transactions of a script's address: each pays it or spends what another paid it, and no
outpoint is spent twice. -/
structure IsHistory (script : String) (txs : List EsploraTx) : Prop where
  nodup : (txs.map EsploraTx.txid).Nodup
  isHex : ∀ tx ∈ txs, isHexOf 64 tx.txid = true
  spentHex : ∀ tx ∈ txs, ∀ vin ∈ tx.vin, ∀ o ∈ spentOutpoint vin, isHexOf 64 o.1 = true
  spentOnce : (txs.flatMap fun tx => tx.vin.filterMap spentOutpoint).Nodup
  touches : ∀ tx ∈ txs, (∃ i v, PaysAt script tx i v) ∨
    ∃ vin ∈ tx.vin, ∃ paid ∈ txs, ∃ i v, PaysAt script paid i v ∧
      spentOutpoint vin = some (paid.txid, i)

/-- Outputs that show everything the transactions paid the script, and spent of it. -/
def ShowsAll (script : String) (txs : List EsploraTx) (outs : List HtlcOut) : Prop :=
  ∀ tx ∈ txs, ∀ i v, PaysAt script tx i v →
    ∃ o ∈ outs, o.outpoint = ⟨tx.txid, i⟩ ∧ o.value = v.value ∧ o.height = tx.height ∧
      ∀ spender ∈ txs, ∀ vin ∈ spender.vin, spentOutpoint vin = some (tx.txid, i) →
        o.spend = some ⟨spender.txid, spender.height, vin.witness⟩

theorem mem_payingOuts {e : String × HtlcOut} : e ∈ payingOuts script tx ↔
    ∃ i v, PaysAt script tx i v ∧ e = (outKey tx.txid i, ⟨tx.txid, i, v.value, tx.height, none⟩) := by
  unfold payingOuts PaysAt
  simp only [List.mem_map, List.mem_filter, decide_eq_true_eq, Prod.exists,
    List.mem_zipIdx_iff_getElem?]
  constructor
  · rintro ⟨v, i, ⟨hv, hs⟩, rfl⟩
    exact ⟨i, v, ⟨hv, hs⟩, rfl⟩
  · rintro ⟨i, v, ⟨hv, hs⟩, rfl⟩
    exact ⟨v, i, ⟨hv, hs⟩, rfl⟩

theorem mem_spendings {e : String × HtlcSpend} : e ∈ spendings tx ↔
    ∃ vin ∈ tx.vin, ∃ o, spentOutpoint vin = some o ∧
      e = (outKey o.1 o.2, ⟨tx.txid, tx.height, vin.witness⟩) := by
  unfold spendings
  rw [List.mem_filterMap]
  simp only [Option.map_eq_some_iff]
  constructor
  · rintro ⟨vin, hvin, o, ho, rfl⟩
    exact ⟨vin, hvin, o, ho, rfl⟩
  · rintro ⟨vin, hvin, o, ho, rfl⟩
    exact ⟨vin, hvin, o, ho, rfl⟩

theorem outKey_injective {a b : String × ℕ} (ha : isHexOf 64 a.1 = true)
    (hb : isHexOf 64 b.1 = true) (h : outKey a.1 a.2 = outKey b.1 b.2) : a = b := by
  obtain ⟨htxid, hvout⟩ := key_injective ha hb h
  exact Prod.ext htxid hvout

/-- No two paying outputs share a key. -/
theorem nodup_keys_payingOuts (h : IsHistory script txs) :
    ((txs.flatMap (payingOuts script)).map Prod.fst).Nodup := by
  rw [List.map_flatMap, List.nodup_flatMap]
  constructor
  · intro tx htx
    have hsub : ((payingOuts script tx).map Prod.fst).Sublist
        (tx.vout.zipIdx.map (fun v => outKey tx.txid v.2)) := by
      unfold payingOuts
      rw [List.map_map]
      exact List.filter_sublist.map _
    have hindex : (tx.vout.zipIdx.map Prod.snd).Nodup := by
      rw [List.zipIdx_map_snd]
      exact List.nodup_range'
    refine hsub.nodup ?_
    have hcomp : tx.vout.zipIdx.map (fun v => outKey tx.txid v.2)
        = (tx.vout.zipIdx.map Prod.snd).map (outKey tx.txid) := by
      rw [List.map_map]
      rfl
    rw [hcomp]
    exact hindex.map fun i j hij => (key_injective (h.isHex tx htx) (h.isHex tx htx) hij).2
  · have hpairs : txs.Pairwise (fun a b => a.txid ≠ b.txid) := by
      have := h.nodup
      unfold List.Nodup at this
      rwa [List.pairwise_map] at this
    refine hpairs.imp_of_mem fun {a b} ha hb hne => ?_
    rw [Function.onFun, List.disjoint_left]
    intro k hka hkb
    obtain ⟨ea, hea, rfl⟩ := List.mem_map.mp hka
    obtain ⟨eb, heb, heq⟩ := List.mem_map.mp hkb
    obtain ⟨i, v, -, rfl⟩ := mem_payingOuts.mp hea
    obtain ⟨j, w, -, rfl⟩ := mem_payingOuts.mp heb
    exact hne (key_injective (h.isHex b hb) (h.isHex a ha) heq).1.symm

/-- No two inputs share a key. -/
theorem nodup_keys_spendings (h : IsHistory script txs) :
    ((txs.flatMap spendings).map Prod.fst).Nodup := by
  have hkeys : (txs.flatMap spendings).map Prod.fst
      = (txs.flatMap fun tx => tx.vin.filterMap spentOutpoint).map (fun o => outKey o.1 o.2) := by
    rw [List.map_flatMap, List.map_flatMap]
    congr 1
    funext tx
    unfold spendings
    rw [List.map_filterMap, List.map_filterMap]
    congr 1
    funext vin
    cases spentOutpoint vin <;> rfl
  have hhex : ∀ o ∈ txs.flatMap fun tx => tx.vin.filterMap spentOutpoint,
      isHexOf 64 o.1 = true := by
    intro o ho
    obtain ⟨tx, htx, ho⟩ := List.mem_flatMap.mp ho
    obtain ⟨vin, hvin, ho⟩ := List.mem_filterMap.mp ho
    exact h.spentHex tx htx vin hvin o ho
  rw [hkeys]
  exact h.spentOnce.map_on fun a ha b hb heq => outKey_injective (hhex a ha) (hhex b hb) heq

/-- The outputs before any is marked as spent. -/
def unmarked (script : String) (txs : List EsploraTx) : OrderedMap String HtlcOut :=
  (txs.flatMap (payingOuts script)).foldl (fun m e => m.set e.1 e.2) ∅

theorem get?_unmarked (h : IsHistory script txs) {i : ℕ} {v : EsploraVout} (htx : tx ∈ txs)
    (hpays : PaysAt script tx i v) : (unmarked script txs).get? (outKey tx.txid i)
      = some ⟨tx.txid, i, v.value, tx.height, none⟩ := by
  unfold unmarked
  rw [OrderedMap.get?_eq_some_iff, OrderedMap.entries_foldl_set (nodup_keys_payingOuts h)]
  exact List.mem_flatMap.mpr ⟨tx, htx, mem_payingOuts.mpr ⟨i, v, hpays, rfl⟩⟩

/-- A scan of the whole history shows everything. -/
theorem showsAll_scanTxs (h : IsHistory script txs) :
    ShowsAll script txs (scanTxs script txs).values := by
  intro tx htx i v hpays
  have hout := get?_unmarked h htx hpays
  have hspends : ∀ spender ∈ txs, ∀ vin ∈ spender.vin, spentOutpoint vin = some (tx.txid, i) →
      (outKey tx.txid i, ⟨spender.txid, spender.height, vin.witness⟩) ∈ txs.flatMap spendings :=
    fun spender hs vin hvin ho =>
      List.mem_flatMap.mpr ⟨spender, hs, mem_spendings.mpr ⟨vin, hvin, _, ho, rfl⟩⟩
  have hshown : ∀ o, (scanTxs script txs).get? (outKey tx.txid i) = some o →
      o ∈ (scanTxs script txs).values := fun o ho => (OrderedMap.mem_values _ _).mpr ⟨_, ho⟩
  rw [scanTxs_eq] at hshown
  rw [scanTxs_eq]
  by_cases hspent : outKey tx.txid i ∈ (txs.flatMap spendings).map Prod.fst
  · obtain ⟨⟨k, s⟩, hmem, rfl⟩ := List.mem_map.mp hspent
    refine ⟨⟨tx.txid, i, v.value, tx.height, some s⟩, hshown _ ?_, rfl, rfl, rfl, ?_⟩
    · rw [get?_foldl_mark_of_mem (nodup_keys_spendings h) hmem]
      exact congrArg (Option.map _) hout
    · intro spender hs vin hvin ho
      have hsame := List.inj_on_of_nodup_map (nodup_keys_spendings h) hmem
        (hspends spender hs vin hvin ho) rfl
      exact congrArg some (congrArg Prod.snd hsame)
  · refine ⟨⟨tx.txid, i, v.value, tx.height, none⟩, hshown _ ?_, rfl, rfl, rfl, ?_⟩
    · rw [get?_foldl_mark_of_notMem hspent]
      exact hout
    · intro spender hs vin hvin ho
      exact absurd (List.mem_map.mpr ⟨_, hspends spender hs vin hvin ho, rfl⟩) hspent

/-- What a scan shows comes from the transactions it read. -/
theorem mem_scanTxs {o : HtlcOut} (h : o ∈ (scanTxs script txs).values) :
    (∃ tx ∈ txs, o.txid = tx.txid) ∧ ∀ s, o.spend = some s → ∃ tx ∈ txs, s.txid = tx.txid := by
  obtain ⟨k, hk⟩ := (OrderedMap.mem_values _ _).mp h
  rw [scanTxs_eq] at hk
  obtain ⟨o₀, h₀, htxid, -, hspend⟩ := foldl_mark_source hk
  have hsource : ∀ (l : List (String × HtlcOut)) (m : OrderedMap String HtlcOut),
      (l.foldl (fun m e => m.set e.1 e.2) m).get? k = some o₀ →
        m.get? k = some o₀ ∨ ∃ e ∈ l, e.2 = o₀ := by
    intro l
    induction l with
    | nil => exact fun m hm => .inl hm
    | cons e l ih =>
      intro m hm
      rcases ih _ hm with hm | ⟨e', he', heq⟩
      · rw [OrderedMap.get?_set] at hm
        split_ifs at hm
        · exact .inr ⟨e, List.mem_cons_self, Option.some.inj hm⟩
        · exact .inl hm
      · exact .inr ⟨e', List.mem_cons_of_mem e he', heq⟩
  rcases hsource _ _ h₀ with hnone | ⟨e, he, rfl⟩
  · exact absurd hnone (by simp)
  obtain ⟨tx, htx, he⟩ := List.mem_flatMap.mp he
  obtain ⟨i, v, -, rfl⟩ := mem_payingOuts.mp he
  refine ⟨⟨tx, htx, htxid⟩, fun s hs => ?_⟩
  rcases hspend with hnone | ⟨e, he, heq⟩
  · rw [hnone] at hs
    exact absurd hs (by simp)
  · obtain ⟨spender, hspender, he⟩ := List.mem_flatMap.mp he
    obtain ⟨vin, -, o', -, rfl⟩ := mem_spendings.mp he
    obtain rfl := Option.some.inj (heq.symm.trans hs)
    exact ⟨spender, hspender, rfl⟩

/-- A transaction that the page leaves out is an output or a spend that the scan misses. -/
theorem mem_page_of_showsAll (h : IsHistory script txs) (hpage : page ⊆ txs)
    (hall : ShowsAll script txs (scanTxs script page).values) (htx : tx ∈ txs) : tx ∈ page := by
  have hunique : ∀ other ∈ page, tx.txid = other.txid → tx ∈ page := fun other ho heq => by
    rw [List.inj_on_of_nodup_map h.nodup htx (hpage ho) heq]
    exact ho
  rcases h.touches tx htx with ⟨i, v, hpays⟩ | ⟨vin, hvin, paid, hpaid, i, v, hpays, ho⟩
  · obtain ⟨o, hmem, hout, -⟩ := hall tx htx i v hpays
    obtain ⟨⟨other, hother, heq⟩, -⟩ := mem_scanTxs hmem
    exact hunique other hother ((congrArg Outpoint.txid hout).symm.trans heq)
  · obtain ⟨o, hmem, -, -, -, hspend⟩ := hall paid hpaid i v hpays
    obtain ⟨other, hother, heq⟩ := (mem_scanTxs hmem).2 _ (hspend tx htx vin hvin ho)
    exact hunique other hother heq

/-! ## Pages -/

variable {history : AddressHistory}

theorem page_sublist : history.page.Sublist history.all :=
  (List.take_sublist _ _).append (List.take_sublist _ _)

/-- A page holds every transaction exactly when both parts fit it. -/
theorem subset_page_iff (h : IsHistory script history.all) : history.all ⊆ history.page ↔
    history.mempool.length ≤ mempoolTxsLimit ∧ history.confirmed.length ≤ chainTxsLimit := by
  have hlen : history.page.length = min mempoolTxsLimit history.mempool.length +
      min chainTxsLimit history.confirmed.length := by
    unfold AddressHistory.page
    rw [List.length_append, List.length_take, List.length_take]
  have hall : history.all.length = history.mempool.length + history.confirmed.length :=
    List.length_append
  constructor
  · intro hsub
    have hle := (List.subperm_of_subset h.nodup.of_map hsub).length_le
    omega
  · rintro ⟨hmem, hconf⟩
    unfold AddressHistory.page
    rw [List.take_of_length_le hmem, List.take_of_length_le hconf]
    exact List.Subset.refl _

/-- Where a scan shows everything, the history fits the page. -/
theorem fits_of_showsAll (h : IsHistory script history.all)
    (hall : ShowsAll script history.all (scanTxs script history.page).values) :
    history.mempool.length ≤ mempoolTxsLimit ∧ history.confirmed.length ≤ chainTxsLimit :=
  (subset_page_iff h).mp fun _ htx => mem_page_of_showsAll h page_sublist.subset hall htx

theorem showsAll_of_fits (h : IsHistory script history.all)
    (hmem : history.mempool.length ≤ mempoolTxsLimit)
    (hconf : history.confirmed.length ≤ chainTxsLimit) :
    ShowsAll script history.all (scanTxs script history.page).values := by
  have hpage : history.page = history.all := by
    unfold AddressHistory.page AddressHistory.all
    rw [List.take_of_length_le hmem, List.take_of_length_le hconf]
  rw [hpage]
  exact showsAll_scanTxs h

variable {L : SwapLib} {chain : Chain} {net : Net} {params : HtlcParams} {htlc : Htlc} {tip : ℕ}

theorem scan_ok (hhtlc : htlcScript L params = .ok htlc) :
    scan L chain net params (.ok ⟨txs, tip⟩) = .ok ⟨L.trAddress htlc.outputKey chain net,
      (scanTxs (toHex htlc.scriptPubKey) txs).values, tip⟩ := by
  unfold scan
  rw [hhtlc]
  rfl

theorem fits_of_scan (hhtlc : htlcScript L params = .ok htlc)
    (h : IsHistory (toHex htlc.scriptPubKey) history.all)
    (hscan : ∃ s, scan L chain net params (.ok ⟨history.page, tip⟩) = .ok s ∧
      ShowsAll (toHex htlc.scriptPubKey) history.all s.outs) :
    history.mempool.length ≤ mempoolTxsLimit ∧ history.confirmed.length ≤ chainTxsLimit := by
  obtain ⟨s, hs, hall⟩ := hscan
  rw [scan_ok hhtlc] at hs
  obtain rfl := Except.ok.inj hs
  exact fits_of_showsAll h hall

/-- **A scan sees everything at the address exactly when the history fits one page.** -/
theorem scan_complete_iff (L : SwapLib) (chain : Chain) (net : Net) (params : HtlcParams)
    (htlc : Htlc) (hhtlc : htlcScript L params = .ok htlc) (history : AddressHistory) (tip : ℕ)
    (h : IsHistory (toHex htlc.scriptPubKey) history.all) :
    (∃ s, scan L chain net params (.ok ⟨history.page, tip⟩) = .ok s ∧
        ShowsAll (toHex htlc.scriptPubKey) history.all s.outs) ↔
      history.mempool.length ≤ mempoolTxsLimit ∧ history.confirmed.length ≤ chainTxsLimit := by
  constructor
  · exact fits_of_scan hhtlc h
  · rintro ⟨hmem, hconf⟩
    exact ⟨_, scan_ok hhtlc, showsAll_of_fits h hmem hconf⟩

/-- Terms of an HTLC. -/
def plainParams : HtlcParams :=
  ⟨List.replicate 32 1, List.replicate 32 2, List.replicate 32 3, 144⟩

def plainHtlc : Htlc :=
  { claimLeaf := Tapscript.encode (claimLeafOps plainParams)
    refundLeaf := Tapscript.encode (refundLeafOps plainParams)
    claimControlBlock := [0xc0] ++ numsInternalKey ++ Tapscript.encode (refundLeafOps plainParams)
    refundControlBlock := [0xc0] ++ numsInternalKey ++ Tapscript.encode (claimLeafOps plainParams)
    merkleRoot := Tapscript.encode (refundLeafOps plainParams)
      ++ Tapscript.encode (claimLeafOps plainParams)
    outputKey := List.replicate 32 9
    scriptPubKey := [0x51, 0x20] ++ List.replicate 32 9 }

/-- A payment of 330 to the HTLC, at height `n`. -/
def plainPayment (n : ℕ) : EsploraTx :=
  { txid := toHex (List.replicate 31 0 ++ [UInt8.ofNat n])
    vin := [⟨some (String.ofList (List.replicate 64 'f')), some n, []⟩]
    vout := [⟨some (toHex plainHtlc.scriptPubKey), 330⟩]
    height := some n }

/-- Confirmed payments at the heights below `n`, the newest first. -/
def paidHistory (n : ℕ) : AddressHistory := ⟨[], (List.range n).reverse.map plainPayment⟩

/-- A platform whose tweak gives every HTLC one output key. -/
def plainSwapLib : SwapLib where
  crypto := ⟨fun b => (b ++ List.replicate 32 0).take 32, fun _ _ _ => true⟩
  schnorr := plainSchnorr
  curve := ⟨fun _ => true⟩
  tx := sampleLib
  tapLeafHash leaf := leaf
  tweak _ _ := (List.replicate 32 9, 0)
  trAddress _ _ _ := "bc1p0xlxvlhemja6c4dqv22uapctqupfhlxm9h8z3k2e72q4k9hcz7vqzk5jj0"
  spendVsize witness _ := 94 + witness.flatten.length / 4
  sighash _ _ _ _ leaf := leaf
  rawSpend utxo _ _ _ witness := (toHex witness.flatten, s!"{utxo.txid}:{utxo.vout}")
  walletKey seed _ _ := seed
  swapSecret seed _ := seed
  swapKey seed _ _ _ := seed

theorem length_paidHistory (n : ℕ) : (paidHistory n).confirmed.length = n := by
  show ((List.range n).reverse.map plainPayment).length = n
  rw [List.length_map, List.length_reverse, List.length_range]

theorem htlcScript_plainParams : htlcScript plainSwapLib plainParams = .ok plainHtlc := rfl

theorem touches_paidHistory (n : ℕ) : ∀ tx ∈ (paidHistory n).all,
    ∃ i v, PaysAt (toHex plainHtlc.scriptPubKey) tx i v := by
  intro tx htx
  obtain ⟨i, -, rfl⟩ := List.mem_map.mp htx
  exact ⟨0, _, rfl, rfl⟩

theorem isHistory_paidHistory {n : ℕ} (hn : n ≤ 256) :
    IsHistory (toHex plainHtlc.scriptPubKey) (paidHistory n).all := by
  have hmem : ∀ tx ∈ (paidHistory n).all, ∃ i < n, plainPayment i = tx := fun tx htx => by
    obtain ⟨i, hi, rfl⟩ := List.mem_map.mp htx
    exact ⟨i, List.mem_range.mp (List.mem_reverse.mp hi), rfl⟩
  have hrange : (List.range n).reverse.Nodup := List.nodup_reverse.mpr List.nodup_range
  refine ⟨?_, ?_, ?_, ?_, fun tx htx => .inl (touches_paidHistory n tx htx)⟩
  · show (((List.range n).reverse.map plainPayment).map EsploraTx.txid).Nodup
    rw [List.map_map]
    refine hrange.map_on fun i hi j hj heq => ?_
    have hi := List.mem_range.mp (List.mem_reverse.mp hi)
    have hj := List.mem_range.mp (List.mem_reverse.mp hj)
    have hbytes := toHex_injective heq
    have hlast : UInt8.ofNat i = UInt8.ofNat j := by simpa using hbytes
    have hnat := congrArg UInt8.toNat hlast
    rw [UInt8.toNat_ofNat', UInt8.toNat_ofNat'] at hnat
    omega
  · intro tx htx
    obtain ⟨i, -, rfl⟩ := hmem tx htx
    exact isHexOf_toHex (List.replicate 31 0 ++ [UInt8.ofNat i])
  · intro tx htx vin hvin o ho
    obtain ⟨i, -, rfl⟩ := hmem tx htx
    obtain rfl := List.mem_singleton.mp hvin
    obtain rfl := Option.some.inj ho
    show isHexOf 64 (String.ofList (List.replicate 64 'f')) = true
    decide
  · have hspent : (paidHistory n).all.flatMap (fun tx => tx.vin.filterMap spentOutpoint)
        = (List.range n).reverse.map (fun i => (String.ofList (List.replicate 64 'f'), i)) := by
      show ((List.range n).reverse.map plainPayment).flatMap _ = _
      rw [List.flatMap_map]
      exact List.flatMap_pure_eq_map _ _
    rw [hspent]
    exact hrange.map fun i j heq => (Prod.mk.inj heq).2

/-- Twenty-five later payments hide the first. -/
theorem scan_complete_iff_buried :
    htlcScript plainSwapLib plainParams = .ok plainHtlc ∧
      IsHistory (toHex plainHtlc.scriptPubKey) (paidHistory 26).all ∧
      ¬∃ s, scan plainSwapLib .bitcoin .mainnet plainParams (.ok ⟨(paidHistory 26).page, 100⟩) = .ok s ∧
        ShowsAll (toHex plainHtlc.scriptPubKey) (paidHistory 26).all s.outs := by
  refine ⟨htlcScript_plainParams, isHistory_paidHistory (by decide), fun hscan => ?_⟩
  have hfits := (fits_of_scan htlcScript_plainParams (isHistory_paidHistory (by decide)) hscan).2
  rw [length_paidHistory] at hfits
  exact absurd hfits (by decide)

/-- One payment is seen. -/
theorem scan_complete_iff_single :
    ∃ s, scan plainSwapLib .bitcoin .mainnet plainParams (.ok ⟨(paidHistory 1).page, 100⟩) = .ok s ∧
      ShowsAll (toHex plainHtlc.scriptPubKey) (paidHistory 1).all s.outs := by
  exact (scan_complete_iff plainSwapLib .bitcoin .mainnet plainParams plainHtlc htlcScript_plainParams
    (paidHistory 1) 100 (isHistory_paidHistory (by decide))).mpr ⟨by decide, by decide⟩

end Gavl
