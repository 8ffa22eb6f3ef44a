import KsBuffer.Memory
import KsBuffer.Buffer
import KsBuffer.Run
import KsBuffer.Framing
import KsBuffer.Queue
import KsBuffer.Capacity
import KsBuffer.Replay
