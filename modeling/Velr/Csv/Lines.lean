import Velr.Csv.Reader

/-!
# Physical lines and chunks

`physical_line` sees its input through the chunks of a `BufReader`. `lineOf` says what it reads from
the bytes to come, whatever their chunks (`physicalLine_reads`).
-/

namespace Velr.Csv

open ByteString

/-- No chunk to come is the end of the file. -/
def Input.Chunked (input : Input) : Prop := ∀ chunk ∈ input.chunks, chunk ≠ []

theorem Input.Chunked.fill {input : Input} (h : input.Chunked) : input.fill.Chunked := by
  unfold Input.fill
  split
  · next chunk chunks _ hchunks =>
      intro c hc
      exact h c (by rw [hchunks]; exact List.mem_cons_of_mem _ hc)
  · exact h

theorem Input.Chunked.consume {input : Input} (h : input.Chunked) (count : Nat) :
    (input.consume count).Chunked := h

/-- The bytes to come are the buffer and what is behind it. -/
theorem rest_eq (input : Input) :
    input.rest = input.fill.buffer ++ input.fill.chunks.flatten := by
  rw [← rest_fill]
  rfl

/-- Consuming a part of the buffer takes it from the rest. -/
theorem rest_consume {input : Input} {count : Nat} (h : count ≤ input.buffer.length) :
    (input.consume count).rest = input.rest.drop count :=
  (List.drop_append_of_le_length h).symm

/-- The buffer is empty at the end of the file only. -/
theorem Input.Chunked.rest_eq_nil {input : Input} (h : input.Chunked)
    (hbuffer : input.fill.buffer = []) : input.rest = [] := by
  unfold Input.fill at hbuffer
  split at hbuffer
  · next chunk chunks _ hchunks =>
      exact absurd hbuffer (h chunk (by rw [hchunks]; exact List.mem_cons_self))
  · next hno =>
      cases hchunks : input.chunks with
      | nil => simp [Input.rest, hbuffer, hchunks]
      | cons chunk chunks => exact absurd hchunks (hno chunk chunks hbuffer)

/-- The first byte to come is in the buffer. -/
theorem Input.Chunked.head_fill {input : Input} (h : input.Chunked) :
    input.fill.buffer.head? = input.rest.head? := by
  cases hbuffer : input.fill.buffer with
  | nil => rw [h.rest_eq_nil hbuffer]
  | cons b buffer => rw [rest_eq, hbuffer]; rfl

/-! ## The line at the front of the bytes to come -/

/-- The first line break of a chunk is that of what it begins. -/
theorem findNewline_append_some {chunk : Bytes} {index : Nat} (h : findNewline chunk = some index)
    (rest : Bytes) : findNewline (chunk ++ rest) = some index := by
  rw [findNewline] at h ⊢
  simp [List.findIdx?_append, h]

/-- Without one it is that of what follows. -/
theorem findNewline_append_none {chunk : Bytes} (h : findNewline chunk = none) (rest : Bytes) :
    findNewline (chunk ++ rest) = (findNewline rest).map (· + chunk.length) := by
  rw [findNewline] at h ⊢
  simp [List.findIdx?_append, h, findNewline]

theorem findNewline_lt {chunk : Bytes} {index : Nat} (h : findNewline chunk = some index) :
    index < chunk.length := by
  rw [findNewline, List.findIdx?_eq_some_iff_getElem] at h
  exact h.1

/-- `physical_line` on all bytes to come: the bytes read, the bytes behind them and the bytes in
`output`. -/
def lineOf (maximum : Nat) (rest output : Bytes) : Except String (Nat × Bytes × Bytes) :=
  match findNewline rest with
  | none =>
      if rest ≠ [] ∧ maximum < output.length + rest.length then
        .error "CSV record exceeds bounded import memory; increase --max-off-heap-memory"
      else .ok (rest.length, [], output ++ rest)
  | some index =>
      if maximum < output.length + (index + 1) then
        .error "CSV record exceeds bounded import memory; increase --max-off-heap-memory"
      else if rest[index]? = some cr ∧ rest[index + 1]? = some lf then
        if output.length + (index + 1) = maximum then
          .error "CSV record exceeds bounded import memory"
        else .ok (index + 2, rest.drop (index + 2), output ++ rest.take (index + 1) ++ [lf])
      else .ok (index + 1, rest.drop (index + 1), output ++ rest.take (index + 1))

/-- The line goes on behind a chunk without a newline. -/
theorem lineOf_skip {maximum : Nat} {chunk rest output : Bytes} (hchunk : chunk ≠ [])
    (hnewline : findNewline chunk = none) (hfits : ¬ maximum < output.length + chunk.length) :
    lineOf maximum (chunk ++ rest) output =
      (lineOf maximum rest (output ++ chunk)).map fun (count, rest, output) =>
        (chunk.length + count, rest, output) := by
  unfold lineOf
  rw [findNewline_append_none hnewline]
  cases findNewline rest with
  | none =>
      have hiff : (chunk ++ rest ≠ [] ∧ maximum < output.length + (chunk ++ rest).length) ↔
          (rest ≠ [] ∧ maximum < (output ++ chunk).length + rest.length) := by
        cases rest with
        | nil => simpa using fun _ => Nat.not_lt.mp hfits
        | cons b rest => simp [hchunk, Nat.add_assoc]
      simp only [Option.map_none, hiff]
      split
      · rfl
      · simp [Except.map]
  | some index =>
      have hget (offset : Nat) : (chunk ++ rest)[chunk.length + offset]? = rest[offset]? := by
        rw [List.getElem?_append_right (Nat.le_add_right _ _), Nat.add_sub_cancel_left]
      have hlen : output.length + (index + chunk.length + 1) =
          (output ++ chunk).length + (index + 1) := by
        simp only [List.length_append]
        omega
      have hcr : (chunk ++ rest)[index + chunk.length]? = rest[index]? := by
        rw [Nat.add_comm, hget]
      have hlf : (chunk ++ rest)[index + chunk.length + 1]? = rest[index + 1]? := by
        rw [Nat.add_comm index, Nat.add_assoc, hget]
      simp only [Option.map_some, hlen, hcr, hlf]
      split
      · rfl
      · have hdrop (n : Nat) : (chunk ++ rest).drop (index + chunk.length + n) =
            rest.drop (index + n) := by
          rw [show index + chunk.length + n = chunk.length + (index + n) by omega,
            List.drop_length_add_append]
        have htake : (chunk ++ rest).take (index + chunk.length + 1) =
            chunk ++ rest.take (index + 1) := by
          rw [show index + chunk.length + 1 = chunk.length + (index + 1) by omega,
            List.take_length_add_append]
        rw [hdrop, hdrop, htake]
        split
        · split
          · rfl
          · simp [Except.map]; omega
        · simp [Except.map]; omega

/-- A chunk without a newline that does not fit. -/
theorem lineOf_long {maximum : Nat} {chunk rest output : Bytes} (hchunk : chunk ≠ [])
    (hnewline : findNewline chunk = none) (hlong : maximum < output.length + chunk.length) :
    lineOf maximum (chunk ++ rest) output =
      .error "CSV record exceeds bounded import memory; increase --max-off-heap-memory" := by
  rw [lineOf, findNewline_append_none hnewline]
  cases findNewline rest with
  | none =>
      refine if_pos ⟨by simp [hchunk], ?_⟩
      rw [List.length_append]
      omega
  | some index => exact if_pos (by dsimp only; omega)

/-- `physicalLine` reads what `lineOf` says, on top of `total`. -/
def Reads (total : Nat) :
    Except String (Nat × Input × Bytes) → Except String (Nat × Bytes × Bytes) → Prop
  | .error e, .error e' => e = e'
  | .ok (read, input, output), .ok (count, rest, output') =>
      read = total + count ∧ input.rest = rest ∧ input.Chunked ∧ output = output'
  | _, _ => False

/-- What is read behind a part is read behind it. -/
theorem Reads.skip {total count : Nat} {result : Except String (Nat × Input × Bytes)}
    {line : Except String (Nat × Bytes × Bytes)} (h : Reads (total + count) result line) :
    Reads total result (line.map fun (n, rest, output) => (count + n, rest, output)) := by
  cases result <;> cases line
  · exact h
  · exact h
  · exact h
  · exact ⟨by rw [h.1, Nat.add_assoc], h.2⟩

/-- A newline in the buffer ends the line at the front of the bytes to come. -/
theorem findNewline_rest {input : Input} {index : Nat}
    (h : findNewline input.fill.buffer = some index) :
    findNewline input.rest = some index ∧ lineCount input.fill.buffer = index + 1 ∧
      input.rest.take (index + 1) = input.fill.buffer.take (index + 1) ∧
      input.rest[index]? = input.fill.buffer[index]? := by
  have hlt := findNewline_lt h
  rw [rest_eq]
  refine ⟨findNewline_append_some h _, by rw [lineCount, h], ?_, ?_⟩
  · exact List.take_append_of_le_length hlt
  · exact List.getElem?_append_left hlt

/-- A physical line that ends in the buffer. -/
theorem lineOf_rest {maximum : Nat} {input : Input} {output : Bytes} {index : Nat}
    (h : input.Chunked) (hindex : findNewline input.fill.buffer = some index)
    (hfits : ¬ maximum < output.length + (index + 1)) :
    lineOf maximum input.rest output =
      if input.fill.buffer[index]? = some cr ∧
          (input.fill.consume (index + 1)).fill.buffer.head? = some lf then
        if (output ++ input.fill.buffer.take (index + 1)).length = maximum then
          .error "CSV record exceeds bounded import memory"
        else .ok (index + 2, input.rest.drop (index + 2),
          output ++ input.fill.buffer.take (index + 1) ++ [lf])
      else .ok (index + 1, input.rest.drop (index + 1),
        output ++ input.fill.buffer.take (index + 1)) := by
  obtain ⟨hrest, hcount, htake, hget⟩ := findNewline_rest hindex
  have hhead : (input.fill.consume (index + 1)).fill.buffer.head? = input.rest[index + 1]? := by
    rw [(h.fill.consume _).head_fill, rest_consume (findNewline_lt hindex), rest_fill,
      List.head?_drop]
  have hlen : (output ++ input.fill.buffer.take (index + 1)).length =
      output.length + (index + 1) := by
    have := findNewline_lt hindex
    rw [List.length_append, List.length_take]
    omega
  rw [lineOf, hrest]
  simp only [if_neg hfits, hget, hhead, hlen, htake]

/-- The chunks make no difference to a physical line. -/
theorem physicalLine_reads {maximum : Nat} {input : Input} {output : Bytes} {total : Nat}
    (h : input.Chunked) :
    Reads total (physicalLine maximum input output total) (lineOf maximum input.rest output) := by
  have hlast {chunk : Bytes} {index : Nat} (h : findNewline chunk = some index) :
      lineCount chunk = index + 1 := by
    rw [lineCount, h]
  have hnext {input : Input} {index : Nat} (h : findNewline input.fill.buffer = some index) :
      (input.fill.consume (index + 1)).rest = input.rest.drop (index + 1) := by
    rw [rest_consume (findNewline_lt h), rest_fill]
  fun_induction physicalLine maximum input output total with
  | case1 input output total _ hchunk =>
      rw [h.rest_eq_nil hchunk]
      have hempty : lineOf maximum [] output = .ok (0, [], output) := by
        simp [lineOf, findNewline]
      rw [hempty]
      exact ⟨rfl, by rw [rest_fill, h.rest_eq_nil hchunk], h.fill, rfl⟩
  | case2 input output total chunk hchunk count hlong =>
      cases hindex : findNewline chunk with
      | some index =>
          have hcount : count = index + 1 := hlast hindex
          rw [hcount] at hlong
          rw [lineOf, (findNewline_rest hindex).1]
          simp only [if_pos hlong]
          rfl
      | none =>
          have hcount : count = chunk.length := by simp only [count, lineCount, hindex]
          rw [rest_eq, lineOf_long hchunk hindex (hcount ▸ hlong)]
          rfl
  | case3 input output total chunk hchunk count hfits line next hsome hcr hmax =>
      obtain ⟨index, hindex⟩ := Option.isSome_iff_exists.mp hsome
      have hcount : count = index + 1 := hlast hindex
      simp only [next, line, hcount, Nat.add_sub_cancel] at hcr hmax
      rw [lineOf_rest h hindex (hcount ▸ hfits), if_pos hcr, if_pos hmax]
      rfl
  | case4 input output total chunk hchunk count hfits line next hsome hcr hmax =>
      obtain ⟨index, hindex⟩ := Option.isSome_iff_exists.mp hsome
      have hcount : count = index + 1 := hlast hindex
      have hone : (next.fill.consume 1).rest = next.rest.drop 1 := by
        rw [rest_consume, rest_fill]
        exact List.length_pos_iff.mpr fun hnil => by simp [hnil] at hcr
      have hchunked : (next.fill.consume 1).Chunked := (h.fill.consume _).fill.consume _
      simp only [next, line, hcount, Nat.add_sub_cancel] at hcr hmax hone hchunked ⊢
      rw [lineOf_rest h hindex (hcount ▸ hfits), if_pos hcr, if_neg hmax]
      exact ⟨rfl, by rw [hone, hnext hindex, List.drop_drop], hchunked, rfl⟩
  | case5 input output total chunk hchunk count hfits line next hsome hlf hcr =>
      obtain ⟨index, hindex⟩ := Option.isSome_iff_exists.mp hsome
      have hcount : count = index + 1 := hlast hindex
      have hchunked : next.fill.Chunked := (h.fill.consume _).fill
      simp only [next, line, hcount, Nat.add_sub_cancel] at hlf hchunked ⊢
      rw [lineOf_rest h hindex (hcount ▸ hfits), if_neg hlf]
      exact ⟨rfl, by rw [rest_fill, hnext hindex], hchunked, rfl⟩
  | case6 input output total chunk hchunk count hfits line next hsome hlf hcr =>
      obtain ⟨index, hindex⟩ := Option.isSome_iff_exists.mp hsome
      have hcount : count = index + 1 := hlast hindex
      have hchunked : next.Chunked := h.fill.consume _
      simp only [next, line, hcount, Nat.add_sub_cancel] at hlf hchunked ⊢
      rw [lineOf_rest h hindex (hcount ▸ hfits), if_neg hlf]
      exact ⟨rfl, hnext hindex, hchunked, rfl⟩
  | case7 input output total chunk hchunk count hfits line next hnone ih =>
      have hnewline : findNewline chunk = none := by simpa using hnone
      have hcount : count = chunk.length := by simp only [count, lineCount, hnewline]
      have hbehind : next.rest = input.fill.chunks.flatten := by
        simp only [next, hcount, Input.consume, Input.rest, chunk, List.drop_length,
          List.nil_append]
      have hline : line = output ++ chunk := by simp only [line, hcount, List.take_length]
      have hreads := ih (h.fill.consume _)
      rw [hbehind, hline, hcount] at hreads
      rw [rest_eq, lineOf_skip hchunk hnewline (hcount ▸ hfits)]
      rw [hline]
      exact hcount ▸ hreads.skip

end Velr.Csv
