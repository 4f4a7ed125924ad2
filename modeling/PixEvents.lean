import PixEvents.Codec.Header
import PixEvents.Codec.Qword
import PixEvents.Codec.StringCopy
import PixEvents.Codec.CopySpec
import PixEvents.Codec.Serialize
import PixEvents.Codec.Decode
import PixEvents.Context.Forward
