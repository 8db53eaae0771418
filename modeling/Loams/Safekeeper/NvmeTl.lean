/-
# The index of a timeline

An index in memory says where the WAL sits in the journal.
-/

import Loams.Safekeeper.Chunks
import Loams.Safekeeper.JournalLog
import Loams.Safekeeper.Nvme

namespace Loams.Safekeeper

open List Loams.Data Loams.Control

variable {cfg : JournalConfig} {id : TimelineId} {wal wal' : Lsn → UInt8} {t : Tl} {r : Logged}

/-! ## Entries and the records behind them -/

/-- A record's payload holds the bytes of an entry. -/
structure IndexEntry.Backed (id : TimelineId) (wal : Lsn → UInt8) (e : IndexEntry) (r : Logged) :
    Prop where
  tl : r.header.tl = id
  kind : r.header.kind = .append
  len_eq : r.header.len = r.payload.length
  seq : r.placed.seq = e.seq
  lsn_le : r.header.lsn ≤ e.lsn
  stop_le : e.stop ≤ r.header.endLsn
  off : e.off = r.placed.payloadOff + (e.lsn - r.header.lsn)
  bytes : ∀ i < e.len, r.payload[e.lsn - r.header.lsn + i]? = some (wal (e.lsn + i))

/-- A part of an entry is backed by the same record. -/
theorem IndexEntry.Backed.part {e e' : IndexEntry} (h : e.Backed id wal r) (hseq : e'.seq = e.seq)
    (hlsn : e.lsn ≤ e'.lsn) (hstop : e'.stop ≤ e.stop) (hoff : e'.off = e.off + (e'.lsn - e.lsn)) :
    e'.Backed id wal r := by
  have hle := h.lsn_le
  refine ⟨h.tl, h.kind, h.len_eq, h.seq.trans hseq.symm, hle.trans hlsn, hstop.trans h.stop_le,
    ?_, fun i hi => ?_⟩
  · rw [hoff, h.off]
    lia
  · unfold IndexEntry.stop at hstop
    have hbytes := h.bytes (e'.lsn - e.lsn + i) (by lia)
    rw [show e.lsn - r.header.lsn + (e'.lsn - e.lsn + i) = e'.lsn - r.header.lsn + i by lia,
      show e.lsn + (e'.lsn - e.lsn + i) = e'.lsn + i by lia] at hbytes
    exact hbytes

/-- Only the bytes of an entry's positions matter. -/
theorem IndexEntry.Backed.congr {e : IndexEntry} (h : e.Backed id wal r)
    (hwal : ∀ pos < e.stop, wal' pos = wal pos) : e.Backed id wal' r :=
  { h with
    bytes := fun i hi => by
      rw [h.bytes i hi, hwal (e.lsn + i) (Nat.add_lt_add_left hi _)] }

/-- An index without gaps up to a position, with records behind what is above the low
position. -/
structure Indexed (id : TimelineId) (log : List Logged) (wal : Lsn → UInt8) (low : Lsn)
    (index : List IndexEntry) (stop : Lsn) : Prop where
  tiles : ∃ first, Tiles IndexEntry.lsn IndexEntry.stop first index stop
  backed : ∀ e ∈ index, low < e.stop → ∃ r ∈ log, e.Backed id wal r

namespace Indexed

variable {log log' : List Logged} {low low' : Lsn} {index : List IndexEntry} {stop : Lsn}

theorem nil (stop : Lsn) : Indexed id log wal low [] stop :=
  ⟨⟨stop, rfl⟩, by rintro e ⟨⟩⟩

/-- Records that back nothing may go, and positions behind the end may be written. -/
theorem congr (h : Indexed id log wal low index stop)
    (hlog : ∀ r ∈ log, (∃ e ∈ index, low < e.stop ∧ e.Backed id wal r) → r ∈ log')
    (hwal : ∀ pos < stop, wal' pos = wal pos) : Indexed id log' wal' low index stop := by
  refine ⟨h.tiles, fun e he hlow => ?_⟩
  obtain ⟨first, htiles⟩ := h.tiles
  obtain ⟨r, hr, hbacked⟩ := h.backed e he hlow
  have hstop := (htiles.bounds_of_mem he).2.2
  exact ⟨r, hlog r hr ⟨e, he, hlow, hbacked⟩,
    hbacked.congr fun pos hpos => hwal pos (hpos.trans_le hstop)⟩

theorem mono (h : Indexed id log wal low index stop) (hlow : low ≤ low') :
    Indexed id log wal low' index stop :=
  ⟨h.tiles, fun e he hstop => h.backed e he (hlow.trans_lt hstop)⟩

/-- An index that ends at the first position is empty. -/
theorem eq_nil (h : Indexed id log wal low index 0) : index = [] := by
  obtain ⟨first, htiles⟩ := h.tiles
  by_contra hne
  exact absurd (htiles.lt hne) (Nat.not_lt_zero _)

/-- An index goes on where it ends. -/
theorem append {entries : List IndexEntry} {stop' : Lsn} (h : Indexed id log wal low index stop)
    (htiles : Tiles IndexEntry.lsn IndexEntry.stop stop entries stop')
    (hbacked : ∀ e ∈ entries, ∃ r ∈ log, e.Backed id wal r) :
    Indexed id log wal low (index ++ entries) stop' := by
  obtain ⟨first, hfirst⟩ := h.tiles
  refine ⟨⟨first, hfirst.append htiles⟩, fun e he hlow => ?_⟩
  rcases mem_append.mp he with he | he
  · exact h.backed e he hlow
  · exact hbacked e he

end Indexed

/-! ## Truncations -/

namespace Tl

theorem truncate_concat (t : Tl) (stop : Lsn) (es : List IndexEntry) (e : IndexEntry)
    (ht : t.index = es ++ [e]) :
    (t.truncate stop).index =
      if stop ≤ e.lsn then ({ t with index := es }.truncate stop).index
      else es ++ [if stop < e.stop then { e with len := stop - e.lsn } else e] := by
  unfold truncate
  rw [ht, reverse_append, reverse_singleton, singleton_append]
  by_cases hstop : stop ≤ e.lsn
  · rw [if_pos hstop, dropWhile_cons_of_pos (by simpa using hstop)]
  · rw [if_neg hstop, dropWhile_cons_of_neg (by simpa using hstop)]
    simp

/-- A cut at or below the end leaves an index up to the cut. -/
theorem indexed_truncate {log : List Logged} {low : Lsn} {stop cut : Lsn}
    (h : Indexed id log wal low t.index stop) (hcut : cut ≤ stop) :
    Indexed id log wal low (t.truncate cut).index cut := by
  suffices hindex : ∀ (index : List IndexEntry) (t : Tl) (stop : Lsn), t.index = index →
      Indexed id log wal low index stop → cut ≤ stop →
      Indexed id log wal low (t.truncate cut).index cut from hindex _ t stop rfl h hcut
  intro index
  induction index using reverseRecOn with
  | nil =>
    intro t stop ht h hcut
    rw [show (t.truncate cut).index = [] by simp [truncate, ht]]
    exact Indexed.nil cut
  | append_singleton es e ih =>
    intro t stop ht h hcut
    obtain ⟨first, htiles⟩ := h.tiles
    obtain ⟨mid, hes, hlsn, hlt, hstop⟩ := Tiles.append_iff.mp htiles
    have hbacked : ∀ e' ∈ es, low < e'.stop → ∃ r ∈ log, e'.Backed id wal r := fun e' he' =>
      h.backed e' (mem_append_left _ he')
    rw [truncate_concat t cut es e ht]
    split_ifs with hbelow hinside
    · exact ih { t with index := es } mid rfl ⟨⟨first, hes⟩, hbacked⟩ (hlsn ▸ hbelow)
    · -- The last entry is cut.
      have hcutEntry : IndexEntry.stop { e with len := cut - e.lsn } = cut := by
        simp only [IndexEntry.stop]
        lia
      refine ⟨⟨first, hes.append ⟨hlsn, ?_, ?_⟩⟩, fun e' he' hlow => ?_⟩
      · rw [hcutEntry]
        lia
      · exact hcutEntry
      · rcases mem_concat.mp he' with he' | rfl
        · exact hbacked e' he' hlow
        · rw [hcutEntry] at hlow
          obtain ⟨r, hr, hlast⟩ := h.backed e (by simp) (hlow.trans hinside)
          exact ⟨r, hr, hlast.part rfl le_rfl (by rw [hcutEntry]; exact hinside.le) (by simp)⟩
    · have hend : cut = stop := by
        have hlast : e.stop = stop := hstop
        lia
      rw [hend]
      exact h

/-! ## Trims -/

/-- A trim leaves an index up to the same end. -/
theorem indexed_trimIndex {log : List Logged} {low : Lsn} {index : List IndexEntry}
    {stop below : Lsn} (h : Indexed id log wal low index stop) :
    Indexed id log wal low (trimIndex below index) stop := by
  induction index with
  | nil => exact h
  | cons e index ih =>
    obtain ⟨first, hlsn, hlt, hrest⟩ := h.tiles
    have hbacked : ∀ e' ∈ index, low < e'.stop → ∃ r ∈ log, e'.Backed id wal r := fun e' he' =>
      h.backed e' (mem_cons_of_mem _ he')
    unfold trimIndex
    split_ifs with hgone hpart
    · exact ih ⟨⟨_, hrest⟩, hbacked⟩
    · -- The first entry loses its front.
      have hbelow := not_le.mp hgone
      have hstop : IndexEntry.stop ⟨below, e.len - (below - e.lsn), e.seq,
          e.off + (below - e.lsn), e.unit⟩ = e.stop := by
        simp only [IndexEntry.stop] at hbelow ⊢
        lia
      refine ⟨⟨below, rfl, ?_, ?_⟩, fun e' he' hlow => ?_⟩
      · rw [hstop]
        exact hbelow
      · rw [hstop]
        exact hrest
      · rcases mem_cons.mp he' with rfl | he'
        · rw [hstop] at hlow
          obtain ⟨r, hr, hfirst⟩ := h.backed e mem_cons_self hlow
          exact ⟨r, hr, hfirst.part rfl hpart.le hstop.le rfl⟩
        · exact hbacked e' he' hlow
    · exact h

/-! ## Durable ends -/

/-- The durable end and the ends of the pending writes are within the written WAL. -/
def Within (t : Tl) : Prop :=
  t.durableEnd ≤ t.head.flushLsn ∧ ∀ p ∈ t.pending, p.2 ≤ t.head.flushLsn

theorem settleLoop_spec (durable : ℕ) (pending : List (ℕ × Lsn)) (durableEnd : Lsn) :
    (∀ p ∈ (settleLoop durable pending durableEnd).1, p ∈ pending) ∧
      ((settleLoop durable pending durableEnd).2 = durableEnd ∨
        ∃ p ∈ pending, p.1 ≤ durable ∧ (settleLoop durable pending durableEnd).2 = p.2) := by
  induction pending generalizing durableEnd with
  | nil => exact ⟨fun p hp => hp, .inl rfl⟩
  | cons p pending ih =>
    obtain ⟨unit, stop⟩ := p
    unfold settleLoop
    split_ifs with hunit
    · exact ⟨fun p hp => hp, .inl rfl⟩
    · obtain ⟨hsub, hend⟩ := ih stop
      refine ⟨fun p hp => mem_cons_of_mem _ (hsub p hp), .inr ?_⟩
      rcases hend with hend | ⟨p, hp, hdurable, hend⟩
      · exact ⟨(unit, stop), mem_cons_self, not_lt.mp hunit, hend⟩
      · exact ⟨p, mem_cons_of_mem _ hp, hdurable, hend⟩

/-- Once every pending write is durable, the written WAL is. -/
theorem settle_durableEnd {durable : ℕ} (h : ∀ p ∈ t.pending, p.1 ≤ durable) :
    (t.settle durable).durableEnd = t.head.flushLsn := by
  have hloop : ∀ (pending : List (ℕ × Lsn)) (durableEnd : Lsn), (∀ p ∈ pending, p.1 ≤ durable) →
      (settleLoop durable pending durableEnd).1 = [] := by
    intro pending
    induction pending with
    | nil => exact fun _ _ => rfl
    | cons p pending ih =>
      intro durableEnd hp
      unfold settleLoop
      rw [if_neg (not_lt.mpr (hp p mem_cons_self))]
      exact ih _ fun p' hp' => hp p' (mem_cons_of_mem _ hp')
  exact if_pos (hloop t.pending t.durableEnd h)

theorem Within.settle (h : t.Within) (durable : ℕ) : (t.settle durable).Within := by
  obtain ⟨hsub, hend⟩ := settleLoop_spec durable t.pending t.durableEnd
  refine ⟨?_, fun p hp => h.2 p (hsub p hp)⟩
  simp only [Tl.settle]
  split_ifs
  · exact le_rfl
  · rcases hend with hend | ⟨p, hp, -, hend⟩
    · rw [hend]
      exact h.1
    · rw [hend]
      exact h.2 p hp

end Tl

/-! ## Reads -/

/-- The end of a piece. -/
def Tl.Piece.stop (p : Tl.Piece) : Lsn := p.lsn + p.len

/-- A piece lies within an entry. -/
structure Tl.Piece.Of (e : IndexEntry) (p : Tl.Piece) : Prop where
  lsn_le : e.lsn ≤ p.lsn
  stop_le : p.stop ≤ e.stop
  seq : p.seq = e.seq
  off : p.off = e.off + (p.lsn - e.lsn)

namespace Tl

theorem pieces_done {d pos : Lsn} {budget : ℕ} (h : budget = 0 ∨ d ≤ pos)
    (index : List IndexEntry) :
    pieces d index pos budget = .ok [] := by
  cases index with
  | nil => rfl
  | cons e index =>
    unfold pieces
    rw [if_pos h]

/-- From an entry that holds the position on, the pieces follow one another up to the
durable end or the number of bytes. -/
theorem pieces_ok {d hi : Lsn} (hd : d ≤ hi) {index : List IndexEntry} {lo pos : Lsn} {budget : ℕ}
    (htiles : Tiles IndexEntry.lsn IndexEntry.stop lo index hi) (hlo : lo ≤ pos)
    (hfirst : ∀ e ∈ index.head?, pos < e.stop) : ∃ ps, pieces d index pos budget = .ok ps ∧
      Tiles Piece.lsn Piece.stop pos ps (max pos (min (pos + budget) d)) ∧
      ∀ p ∈ ps, ∃ e ∈ index, p.Of e := by
  induction index generalizing lo pos budget with
  | nil =>
    have hend : lo = hi := htiles
    exact ⟨[], rfl, by rw [Tiles.nil_iff]; lia, by rintro p ⟨⟩⟩
  | cons e index ih =>
    obtain ⟨rfl, hlt, hrest⟩ := htiles
    have hstop : pos < e.stop := hfirst e rfl
    by_cases hdone : budget = 0 ∨ d ≤ pos
    · exact ⟨[], pieces_done hdone _, by rw [Tiles.nil_iff]; lia, by rintro p ⟨⟩⟩
    · obtain ⟨hbudget, hpos⟩ := not_or.mp hdone
      -- The piece ends with the entry, the durable end or the number of bytes.
      obtain ⟨stop', hstop'⟩ : ∃ stop', stop' = min (min e.stop d) (pos + budget) := ⟨_, rfl⟩
      have hhi : e.lsn + min (min e.stop d - e.lsn) (pos - e.lsn + budget) = stop' := by lia
      have hlen :
          min (min e.stop d - e.lsn) (pos - e.lsn + budget) - (pos - e.lsn) = stop' - pos := by
        lia
      have hgrows : pos < stop' := by lia
      have hrest' : ∃ ps, pieces d index stop' (budget - (stop' - pos)) = .ok ps ∧
          Tiles Piece.lsn Piece.stop stop' ps (max pos (min (pos + budget) d)) ∧
          ∀ p ∈ ps, ∃ e ∈ index, p.Of e := by
        by_cases hmore : budget - (stop' - pos) = 0 ∨ d ≤ stop'
        · exact ⟨[], pieces_done hmore _, by rw [Tiles.nil_iff]; lia, by rintro p ⟨⟩⟩
        · have hend : stop' = e.stop := by lia
          have hnext : ∀ e' ∈ index.head?, stop' < e'.stop := by
            intro e' he'
            cases index with
            | nil => cases he'
            | cons e'' index =>
              obtain rfl := Option.some.inj he'
              exact hend ▸ hrest.2.1
          rw [show max pos (min (pos + budget) d) =
            max stop' (min (stop' + (budget - (stop' - pos))) d) by lia]
          exact ih hrest hend.ge hnext
      obtain ⟨ps, hps, htiles, hof⟩ := hrest'
      have hpiece : Piece.stop ⟨pos, e.seq, e.off + (pos - e.lsn), stop' - pos⟩ = stop' := by
        simp only [Piece.stop]
        lia
      refine ⟨⟨pos, e.seq, e.off + (pos - e.lsn), stop' - pos⟩ :: ps, ?_, ⟨rfl, ?_, ?_⟩, ?_⟩
      · unfold pieces
        rw [if_neg hdone, if_neg (not_lt.mpr hlo)]
        dsimp only
        rw [if_neg (by lia), hhi, hlen, hps]
        rfl
      · rw [hpiece]
        exact hgrows
      · rw [hpiece]
        exact htiles
      · intro p hp
        rcases mem_cons.mp hp with rfl | hp
        · exact ⟨e, mem_cons_self, hlo, by rw [hpiece]; lia, rfl, rfl⟩
        · obtain ⟨e', he', hof'⟩ := hof p hp
          exact ⟨e', mem_cons_of_mem _ he', hof'⟩

variable {journal : Journal}

/-- The bytes of the piece are read as the WAL has them. -/
def Piece.Reads (journal : Journal) (wal : Lsn → UInt8) (p : Piece) : Prop :=
  ∃ bytes, journal.read p.seq p.off p.len = .ok bytes ∧ bytes.length = p.len ∧
    ∀ i < p.len, bytes[i]? = some (wal (p.lsn + i))

/-- The bytes of a piece are read from the record behind its entry. -/
theorem Piece.Of.read_eq {p : Piece} {e : IndexEntry}
    (hof : p.Of e) (hok : journal.Ok) (hlaid : journal.Laid) (hr : r ∈ journal.log)
    (hbacked : e.Backed id wal r) (hlen : 0 < p.len) : p.Reads journal wal := by
  have hlsn := hof.lsn_le
  have hstop := hof.stop_le
  have hrecord := hbacked.lsn_le
  have hend := hbacked.stop_le
  simp only [Piece.stop, IndexEntry.stop, RecordHeader.endLsn, hbacked.len_eq] at hstop hend
  have hoff : p.off = r.placed.payloadOff + (p.lsn - r.header.lsn) := by
    rw [hof.off, hbacked.off]
    lia
  have hholds : r.holds p.seq p.off p.len = true := by
    simp only [Logged.holds, Bool.and_eq_true, decide_eq_true_eq]
    exact ⟨⟨hbacked.seq.trans hof.seq.symm, by omega⟩, by rw [hoff]; lia⟩
  refine ⟨_, hlaid.read_eq hok hr hholds hlen, ?_, fun i hi => ?_⟩
  · rw [length_take, length_drop, hoff]
    lia
  · have hbyte := hbacked.bytes (p.lsn - e.lsn + i) (by lia)
    rw [getElem?_take_of_lt hi, getElem?_drop, hoff, Nat.add_sub_cancel_left,
      show p.lsn - r.header.lsn + i = e.lsn - r.header.lsn + (p.lsn - e.lsn + i) by lia, hbyte,
      show e.lsn + (p.lsn - e.lsn + i) = p.lsn + i by lia]

/-- The loop over the pieces. -/
theorem mapM_read {ps : List Piece} {start stop : Lsn}
    (htiles : Tiles Piece.lsn Piece.stop start ps stop) (hread : ∀ p ∈ ps, p.Reads journal wal) :
    ∃ out, (ps.mapM fun p => do
        let bytes ← journal.read p.seq p.off p.len
        (.ok (p.lsn, bytes) : Except Error (Lsn × Bytes))) = .ok out ∧
      Spells wal start out stop := by
  induction ps generalizing start with
  | nil => exact ⟨[], rfl, htiles, by rintro p ⟨⟩⟩
  | cons p ps ih =>
    obtain ⟨hlsn, hlt, hrest⟩ := htiles
    obtain ⟨bytes, hbytes, hlen, hwal⟩ := hread p mem_cons_self
    obtain ⟨out, hout, hspells⟩ := ih hrest fun p' hp' => hread p' (mem_cons_of_mem _ hp')
    have hstop : runStop (p.lsn, bytes) = p.stop := by rw [runStop, hlen, Piece.stop]
    refine ⟨(p.lsn, bytes) :: out, ?_, ⟨hlsn, ?_, ?_⟩, ?_⟩
    · rw [mapM_cons, hbytes, hout]
      rfl
    · rw [hstop]
      exact hlt
    · rw [hstop]
      exact hspells.tiles
    · intro p' hp'
      rcases mem_cons.mp hp' with rfl | hp'
      · exact fun i hi => hwal i (hlen ▸ hi)
      · exact hspells.bytes p' hp'

/-- A read from the first position of the index on, or above, returns the WAL up to the
durable end or the number of bytes asked for. -/
theorem read_spells {low stop first : Lsn} (hok : journal.Ok)
    (hlaid : journal.Laid) (h : Indexed id journal.log wal low t.index stop)
    (hfirst : Tiles IndexEntry.lsn IndexEntry.stop first t.index stop)
    (hdurable : t.durableEnd ≤ stop)
    {start : Lsn} (hstart : first ≤ start) (hlow : low ≤ start)
    (htrimmed : t.head.trimmedLsn ≤ start)
    (maxBytes : ℕ) : ∃ out, t.read journal start maxBytes = .ok out ∧
      Spells wal start out (max start (min (start + maxBytes) t.durableEnd)) := by
  have hdrop : ∀ e ∈ t.index.dropWhile (·.stop ≤ start), start < e.stop := fun e he =>
    hfirst.lt_stop_of_mem_dropWhile he
  obtain ⟨lo, hlo, htiles⟩ := hfirst.dropWhile hstart
  obtain ⟨ps, hps, htiles, hof⟩ := pieces_ok hdurable htiles hlo fun e he =>
    hdrop e (mem_of_mem_head? he)
  have hread : ∀ p ∈ ps, p.Reads journal wal := by
    intro p hp
    obtain ⟨e, he, hpiece⟩ := hof p hp
    obtain ⟨r, hr, hbacked⟩ :=
      h.backed e ((dropWhile_sublist _).subset he) (hlow.trans_lt (hdrop e he))
    have hlt : p.lsn < p.lsn + p.len := (htiles.bounds_of_mem hp).2.1
    exact hpiece.read_eq hok hlaid hr hbacked (by lia)
  obtain ⟨out, hout, hspells⟩ := mapM_read htiles hread
  refine ⟨out, ?_, hspells⟩
  unfold Tl.read readPieces
  have hheld :
      require (t.head.trimmedLsn ≤ start) (Error.trimmed start t.head.trimmedLsn) = .ok () :=
    require_eq_ok.mpr htrimmed
  rw [hheld]
  dsimp only [bind, Except.bind]
  rw [hps]
  exact hout

end Tl

end Loams.Safekeeper
