import Rdpio.Android.LatePicture
import Rdpio.Android.Show
import Rdpio.Android.StandIns
import Rdpio.Android.VideoLoop
import Rdpio.Android.Yuv
import Rdpio.Channels.ClipboardFiles
import Rdpio.Channels.ClipboardList
import Rdpio.Channels.ClipboardPaste
import Rdpio.Channels.ClipboardServe
import Rdpio.Channels.RdpdrConfined
import Rdpio.Channels.Rdpei
import Rdpio.Channels.Total
import Rdpio.Client.BandOrder
import Rdpio.Client.CameraStream
import Rdpio.Client.ChooseMode
import Rdpio.Client.Comeback
import Rdpio.Client.DecodeLoop
import Rdpio.Client.DriverSettings
import Rdpio.Client.FileHandoff
import Rdpio.Client.HostReceive
import Rdpio.Client.HyperCamera
import Rdpio.Client.HyperLink
import Rdpio.Client.HyperTcpOrder
import Rdpio.Client.HyperTouch
import Rdpio.Client.Microphone
import Rdpio.Client.PlayLoop
import Rdpio.Client.RdpPaste
import Rdpio.Client.RegionRects
import Rdpio.Client.SameDesktop
import Rdpio.Client.Stun
import Rdpio.Client.UdpTunnel
import Rdpio.Client.UpdaterRuns
import Rdpio.Client.WebSocket
import Rdpio.Crypto.BigUint
import Rdpio.Graphics.Avc444
import Rdpio.Graphics.AvcStream
import Rdpio.Graphics.ChannelLives
import Rdpio.Graphics.ClearCodecSeed
import Rdpio.Graphics.Clipped
import Rdpio.Graphics.InterleavedRle
import Rdpio.Graphics.Nv12
import Rdpio.Graphics.ProgressiveChecked
import Rdpio.Graphics.RfxReturns
import Rdpio.Graphics.ZgfxOutput
import Rdpio.Graphics.ZgfxReference
import Rdpio.Hyper.Audio
import Rdpio.Hyper.AutoResRuns
import Rdpio.Hyper.InputEffect
import Rdpio.Hyper.Ltr
import Rdpio.Hyper.PlayoutRuns
import Rdpio.Hyper.RateKeyframe
import Rdpio.Hyper.ReliableUnsent
import Rdpio.Hyper.SendOrder
import Rdpio.Hyper.VideoAnyBody
import Rdpio.Nla.TsRequest
import Rdpio.Pdu.Fastpath
import Rdpio.Pdu.RdpudpUnacked
import Rdpio.Pdu.Redirection
import Rdpio.Webrtc.Capture
import Rdpio.Webrtc.Events
import Rdpio.Webrtc.Muted
